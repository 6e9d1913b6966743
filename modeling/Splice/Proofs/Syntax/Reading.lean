import Splice.Proofs.Syntax.Lexeme
import Splice.Proofs.Syntax.Primitives

/-!
This module contains the soundness of the parser: what it reads off a list of tokens is a tree whose
words are those of the tokens it took.
-/

namespace Splice

namespace Parser

/-! ## What a parser takes -/

/--
What the parser takes off the tokens `ts` and what it returns for them have the property.
-/
def Spends {α : Type} (p : Parse α) (ts : List Token) (property : α → List Token → Prop) : Prop :=
  ∀ a rest, p.run ts = .ok (a, rest) → ∃ own, ts = own ++ rest ∧ property a own

namespace Spends

variable {α β : Type} {p : Parse α} {P : α → List Token → Prop} {Q : β → List Token → Prop}
  {t : Token} {ts : List Token}

theorem imp {R : α → List Token → Prop} (hp : Spends p ts P) (h : ∀ a own, P a own → R a own) :
    Spends p ts R := by
  intro a rest hrun
  obtain ⟨own, hts, hP⟩ := hp a rest hrun
  exact ⟨own, hts, h a own hP⟩

theorem bind_run {f : α → Parse β} (hp : Spends p ts P)
    (hf : ∀ a own rest, p.run ts = .ok (a, rest) → ts = own ++ rest → P a own →
      Spends (f a) rest fun b more => Q b (own ++ more)) :
    Spends (p >>= f) ts Q := by
  intro b rest h
  obtain ⟨a, mid, ha, hb⟩ := run_bind_eq_ok.1 h
  obtain ⟨own, hts, hP⟩ := hp a mid ha
  obtain ⟨more, rfl, hQ⟩ := hf a own mid ha hts hP b rest hb
  exact ⟨own ++ more, hts.trans (List.append_assoc ..).symm, hQ⟩

theorem bind {f : α → Parse β} (hp : Spends p ts P)
    (hf : ∀ a own rest, P a own → Spends (f a) rest fun b more => Q b (own ++ more)) :
    Spends (p >>= f) ts Q :=
  hp.bind_run fun a own rest _ _ => hf a own rest

theorem pure {a : α} (h : P a []) : Spends (Pure.pure a) ts P := by
  intro b rest hrun
  obtain ⟨rfl, rfl⟩ := Prod.mk.inj (run_pure_eq_ok.1 hrun)
  exact ⟨[], rfl, h⟩

theorem bind_pure {g : α → β} (hp : Spends p ts P) (h : ∀ a own, P a own → Q (g a) own) :
    Spends (p >>= fun a => Pure.pure (g a)) ts Q := by
  refine hp.bind fun a own rest ha => .pure ?_
  rw [List.append_nil]
  exact h a own ha

theorem fail (fault : SyntaxFault) (span : Span) : Spends (fail fault span) ts P :=
  fun _ _ h => (run_fail_ne_ok h).elim

theorem ite {c : Prop} [Decidable c] {q : Parse α} (hp : c → Spends p ts P)
    (hq : ¬c → Spends q ts P) : Spends (if c then p else q) ts P := by
  split
  . next hc => exact hp hc
  . next hc => exact hq hc

theorem get_bind {f : List Token → Parse β} (h : Spends (f ts) ts Q) : Spends (get >>= f) ts Q := h

theorem peekKind_bind {f : Option TokenKind → Parse β} (h : Spends (f (firstKind? ts)) ts Q) :
    Spends (peekKind >>= f) ts Q := h

theorem peekWord_bind {word : String} {f : Bool → Parse β}
    (h : Spends (f (startsWith word ts)) ts Q) : Spends (peekWord word >>= f) ts Q := h

theorem skip_bind {f : Unit → Parse β} (h : Spends (f ()) ts fun b more => Q b (t :: more)) :
    Spends (skip >>= f) (t :: ts) Q := by
  intro b rest hrun
  obtain ⟨own, hts, hQ⟩ := h b rest hrun
  exact ⟨t :: own, congrArg (t :: ·) hts, hQ⟩

theorem next_bind {f : Token → Parse β} (h : Spends (f t) ts fun b more => Q b (t :: more)) :
    Spends (next >>= f) (t :: ts) Q := by
  intro b rest hrun
  obtain ⟨_, _, hnext, hrun⟩ := run_bind_eq_ok.1 hrun
  obtain ⟨rfl, rfl⟩ := List.cons.inj (run_next_eq_ok.1 hnext)
  obtain ⟨own, hts, hQ⟩ := h b rest hrun
  exact ⟨t :: own, congrArg (t :: ·) hts, hQ⟩

theorem peek_bind {goesOn : Parse Bool} {look : List Token → Bool} {f : Bool → Parse β}
    (hgoesOn : Peeks goesOn look) (h : Spends (f (look ts)) ts Q) : Spends (goesOn >>= f) ts Q := by
  intro b rest hrun
  obtain ⟨found, mid, hfound, hrun⟩ := run_bind_eq_ok.1 hrun
  obtain ⟨rfl, rfl⟩ := hgoesOn ts found mid hfound
  exact h b rest hrun

theorem repeatWhile {goesOn : Parse Bool} {look : List Token → Bool}
    {R : List α → List Token → Prop} (hgoesOn : Peeks goesOn look)
    (hp : ∀ ts, look ts = true → Spends p ts P) (hnil : R [] [])
    (hcons : ∀ a as own more, P a own → R as more → R (a :: as) (own ++ more)) (ts : List Token) :
    Spends (repeatWhile goesOn p) ts R := by
  unfold Parser.repeatWhile
  refine .get_bind ?_
  generalize ts.length + 1 = rounds
  induction rounds generalizing ts with
  | zero => exact fun _ _ h => (run_stop_ne_ok h).elim
  | succ rounds ih =>
    refine .peek_bind hgoesOn (.ite (fun hlook => ?_) fun _ => .pure hnil)
    refine (hp ts hlook).bind fun a own mid ha => ?_
    exact (ih mid).bind_pure fun as more has => hcons a as own more ha has

end Spends

theorem spends_next (ts : List Token) : Spends next ts fun t own => own = [t] := by
  intro t rest h
  exact ⟨[t], run_next_eq_ok.1 h, rfl⟩

theorem spends_expect {s : Setting} (kind : TokenKind) (what : String) (ts : List Token) :
    Spends (expect s kind what) ts fun t own => own = [t] ∧ t.kind = kind := by
  intro t rest h
  obtain ⟨hts, hkind⟩ := run_expect_eq_ok.1 h
  exact ⟨[t], hts, rfl, hkind⟩

theorem spends_name {s : Setting} (what : String) (instructions : Bool) (ts : List Token) :
    Spends (name s what instructions) ts fun i own =>
      ∃ t, own = [t] ∧ t.word = .ofName i.name ∧ i.span = t.span := by
  intro i rest h
  obtain ⟨t, hts, hword, hspan⟩ := eq_cons_of_run_name h
  exact ⟨[t], hts, t, rfl, hword, hspan⟩

/-! ## Words -/

def Spelled (ts : List Token) (ws : List Word) : Prop :=
  (∀ t ∈ ts, t.word.Lexed) → ts.map Token.word = ws

namespace Spelled

variable {t : Token} {ts us : List Token} {w : Word} {ws vs : List Word}

theorem nil : Spelled [] [] := fun _ => rfl

theorem append (h : Spelled ts ws) (h' : Spelled us vs) : Spelled (ts ++ us) (ws ++ vs) := by
  intro hlexed
  rw [List.forall_mem_append] at hlexed
  rw [List.map_append, h hlexed.1, h' hlexed.2]

theorem token (h : t.word = w) : Spelled [t] [w] := by
  intro _
  rw [List.map_singleton, h]

theorem of_kind (hk : t.kind = w.1) (hw : ∀ text, Word.Lexed (w.1, text) → text = w.2) :
    Spelled [t] [w] := by
  intro hlexed
  have htext : Word.Lexed (w.1, t.text) := hk ▸ hlexed t (List.mem_singleton.2 rfl)
  rw [List.map_singleton, Token.word, hk, hw _ htext]

theorem cons (h : Spelled [t] [w]) (hts : Spelled ts ws) : Spelled (t :: ts) (w :: ws) :=
  h.append hts

theorem of_eq (h : Spelled ts ws) (hts : us = ts) (hws : vs = ws) : Spelled us vs := by
  rw [hts, hws]
  exact h

end Spelled

def Spells {α : Type} (words : α → List Word) (p : Parse α) : Prop :=
  ∀ ts, Spends p ts fun a own => Spelled own (words a)

def Consumes {α : Type} (p : Parse α) (words : α → List Word) : Prop :=
  ∀ ts a rest, (∀ w ∈ ts.map Token.word, w.Lexed) → p.run ts = .ok (a, rest) →
    ts.map Token.word = words a ++ rest.map Token.word

theorem Spells.consumes {α : Type} {p : Parse α} {words : α → List Word} (h : Spells words p) :
    Consumes p words := by
  intro ts a rest hts hrun
  obtain ⟨own, rfl, hown⟩ := h ts a rest hrun
  rw [List.forall_mem_map, List.forall_mem_append] at hts
  rw [List.map_append, hown hts.1]

variable {s : Setting}

/-! ## Names and lists -/

theorem spells_expect (w : Word) (hw : ∀ text, Word.Lexed (w.1, text) → text = w.2)
    (what : String) : Spells (fun _ => [w]) (expect s w.1 what) := by
  intro ts
  refine (spends_expect _ _ ts).imp ?_
  rintro t _ ⟨rfl, hk⟩
  exact .of_kind hk hw

theorem spells_name (what : String) (instructions : Bool) :
    Spells (fun i => [.ofName i.name]) (name s what instructions) := by
  intro ts
  refine (spends_name _ _ ts).imp ?_
  rintro i _ ⟨t, rfl, hword, _⟩
  exact .token hword

section

variable {α : Type} {p : Parse α} {words : α → List Word} (hp : Spells words p)

include hp

theorem spells_behindComma {ts : List Token} (hcomma : firstKind? ts = some .comma) :
    Spends (behindComma p) ts fun a own => Spelled own (.comma :: words a) := by
  obtain ⟨comma, us, rfl, hk⟩ := eq_cons_of_firstKind? hcomma
  unfold behindComma
  refine .skip_bind ((hp us).imp fun a own ha => ?_)
  exact .cons (.of_kind hk fun _ h => h) ha

theorem spells_others :
    Spells (fun as => as.flatMap fun a => .comma :: words a)
      (repeatWhile atComma (behindComma p)) :=
  .repeatWhile peeks_atComma (fun _ h => spells_behindComma hp (of_decide_eq_true h)) .nil
    fun _ _ _ _ ha has => ha.append has

theorem spells_commaSeparated (ts : List Token) :
    Spends (commaSeparated p) ts fun as own =>
      as ≠ [] ∧ Spelled own (Word.separated (as.map words)) := by
  unfold commaSeparated
  refine (hp ts).bind fun a own mid ha => ?_
  refine (spells_others hp mid).bind_pure fun as others has => ?_
  refine ⟨List.cons_ne_nil a as, (ha.append has).of_eq rfl ?_⟩
  rw [List.map_cons, Word.separated, List.flatMap_map]

theorem spells_items : Spells (fun as => Word.separated (as.map words)) (items p) := by
  intro ts
  unfold items
  refine .peekKind_bind (.ite (fun _ => .pure .nil) fun _ => ?_)
  exact (spells_commaSeparated hp ts).imp fun _ _ => And.right

end

/-! ## Variables and expressions -/

theorem spells_typeSuffix : Spells Word.typeSuffix (typeSuffix s) := by
  intro ts
  unfold typeSuffix
  refine .peekKind_bind (.ite (fun hc => ?_) fun _ => .pure .nil)
  simp only [Bool.and_eq_true, decide_eq_true_eq] at hc
  obtain ⟨colon, us, rfl, hk⟩ := eq_cons_of_firstKind? hc.2
  refine .skip_bind ((spells_name _ _ us).bind_pure fun i own hi => ?_)
  exact .cons (.of_kind hk fun _ h => h) hi

theorem spells_binder : Spells Binder.words (binder s) := by
  intro ts
  unfold binder
  refine (spells_name _ _ ts).bind fun i own mid hi => ?_
  exact (spells_typeSuffix mid).bind_pure fun type typing htype => hi.append htype

theorem spells_literal (kind : LiteralKind) {t : Token} (hk : t.kind = kind.tokenKind)
    (ts : List Token) : Spends (literal s kind) (t :: ts) fun e own => Spelled own e.words := by
  unfold literal
  refine .next_bind ((spells_typeSuffix ts).bind_pure fun type typing htype => ?_)
  exact .cons (.token (congrArg (·, t.text) hk)) htype

section

variable {expression : Parse Expr} (he : Spells Expr.words expression)

include he

theorem spells_arguments :
    Spells (fun r => Word.separated (Expr.allWords r.1) ++ [.rightParen])
      (arguments s expression) := by
  intro ts
  unfold arguments
  refine (spells_items he ts).bind fun es own mid hes => ?_
  refine (spells_expect .rightParen (fun _ h => h) _ mid).bind_pure fun close last hclose => ?_
  refine (hes.append hclose).of_eq rfl ?_
  simp only [Expr.allWords_eq_map]

theorem spells_named : Spells Expr.words (named s expression) := by
  intro ts
  unfold named
  refine (spells_name _ _ ts).bind fun i own mid hi => ?_
  refine .peekKind_bind (.ite (fun hpeek => ?_) fun _ => .pure ?_)
  . obtain ⟨paren, us, rfl, hk⟩ := eq_cons_of_firstKind? hpeek
    refine .skip_bind ((spells_arguments he us).bind fun r more rest hr => ?_)
    have hwords := hi.append ((Spelled.of_kind (w := .leftParen) hk fun _ h => h).cons hr)
    refine .ite (fun _ => .pure ?_) fun _ => .pure ?_
    all_goals
      rw [List.append_nil]
      exact hwords
  . rw [List.append_nil]
    exact hi

end

theorem spells_expression (depth : Nat) : Spells Expr.words (expression s depth) := by
  induction depth with
  | zero => exact fun ts => .get_bind (.fail _ _)
  | succ depth ih =>
    intro ts
    unfold expression
    refine .peekKind_bind ?_
    split
    . next hkind =>
      obtain ⟨t, us, rfl, hk⟩ := eq_cons_of_firstKind? hkind
      exact spells_literal .number hk us
    . next hkind =>
      obtain ⟨t, us, rfl, hk⟩ := eq_cons_of_firstKind? hkind
      exact spells_literal .string hk us
    . next hkind =>
      obtain ⟨t, us, rfl, hk⟩ := eq_cons_of_firstKind? hkind
      refine .peekWord_bind (.peekWord_bind (.ite (fun _ => ?_) fun _ => spells_named ih _))
      exact spells_literal .boolean hk us
    . exact (spends_next ts).bind fun _ _ _ _ => .fail _ _
    . exact .fail _ _

/-! ## Statements -/

theorem spells_stackAssignment {ts : List Token} (hkind : firstKind? ts = some .stackAssign) :
    Spends (stackAssignment s) ts fun r own => Spelled own r.words := by
  obtain ⟨t, us, rfl, hk⟩ := eq_cons_of_firstKind? hkind
  unfold stackAssignment
  refine .next_bind ((spells_name _ _ us).bind_pure fun i own hi => ?_)
  exact .cons (.of_kind hk fun _ h => h) hi

theorem spells_label {ts : List Token} (hcolon : secondKind? ts = some .colon) :
    Spends (label s) ts fun r own => Spelled own r.words := by
  unfold label
  refine (spends_name _ _ ts).bind_run ?_
  rintro i _ mid _ rfl ⟨t, rfl, hword, _⟩
  have hkind : firstKind? mid = some .colon := hcolon
  obtain ⟨colon, us, rfl, hk⟩ := eq_cons_of_firstKind? hkind
  refine .next_bind (.pure ?_)
  exact .cons (.token hword) (.of_kind hk fun _ h => h)

theorem spells_instruction {d : Dialect} {ts : List Token} (h : isBareInstruction d ts = true) :
    Spends instruction ts fun r own => Spelled own r.words := by
  obtain ⟨_, t, us, rfl, hk, _⟩ := eq_cons_of_isBareInstruction h
  exact .next_bind (.pure (.token (congrArg (·, t.text) hk)))

theorem spells_returns :
    Spells (fun xs => if xs.isEmpty then [] else .arrow :: Word.separated (xs.map Binder.words))
      (returns s) := by
  intro ts
  unfold returns
  refine .peekKind_bind (.ite (fun hpeek => ?_) fun _ => .pure .nil)
  obtain ⟨arrow, us, rfl, hk⟩ := eq_cons_of_firstKind? hpeek
  refine .skip_bind ((spells_commaSeparated spells_binder us).imp ?_)
  rintro xs own ⟨hne, hxs⟩
  cases xs with
  | nil => contradiction
  | cons => exact .cons (.of_kind hk fun _ h => h) hxs

section

variable {block : Parse Block} {expression : Parse Expr} {ts : List Token}
  (hb : Spells Block.words block) (he : Spells Expr.words expression)

include he in
theorem spells_declaration (hlet : startsWith "let" ts = true) :
    Spends (declaration s expression) ts fun r own => Spelled own r.words := by
  obtain ⟨t, ts, rfl, ht⟩ := eq_cons_of_startsWith hlet
  unfold declaration
  refine .next_bind ((spells_commaSeparated spells_binder ts).bind ?_)
  rintro vars own mid ⟨_, hvars⟩
  refine .peekKind_bind (.ite (fun hpeek => ?_) fun _ => .pure ?_)
  . obtain ⟨assign, us, rfl, hk⟩ := eq_cons_of_firstKind? hpeek
    refine .skip_bind ((he us).bind_pure fun value more hvalue => ?_)
    have hassign : Spelled [assign] [.assign] := .of_kind hk fun _ h => h
    exact .cons (.token ht) (hvars.append (hassign.cons hvalue))
  . rw [List.append_nil]
    exact .cons (.token ht) hvars

include hb in
theorem spells_function (hfunction : startsWith "function" ts = true) :
    Spends (function s block) ts fun r own => Spelled own r.words := by
  obtain ⟨t, ts, rfl, ht⟩ := eq_cons_of_startsWith hfunction
  unfold function
  refine .next_bind ((spells_name _ _ ts).bind fun i own₁ ts₁ hi => ?_)
  refine (spells_expect .leftParen (fun _ h => h) _ ts₁).bind fun _ own₂ ts₂ hleft => ?_
  refine (spells_items spells_binder ts₂).bind fun parameters own₃ ts₃ hparameters => ?_
  refine (spells_expect .rightParen (fun _ h => h) _ ts₃).bind fun _ own₄ ts₄ hright => ?_
  refine (spells_returns ts₄).bind fun xs own₅ ts₅ hxs => ?_
  refine (hb ts₅).bind_pure fun body own₆ hbody => ?_
  have hhead := (((hi.append hleft).append hparameters).append hright).append hxs
  refine (Spelled.cons (.token ht) (hhead.append hbody)).of_eq ?_ ?_
  . simp only [List.append_assoc]
  . simp only [Stmt.words, Signature.words, Word.parenthesised, List.append_assoc,
      List.cons_append, List.nil_append]

include hb he in
theorem spells_conditional (hif : startsWith "if" ts = true) :
    Spends (conditional block expression) ts fun r own => Spelled own r.words := by
  obtain ⟨t, ts, rfl, ht⟩ := eq_cons_of_startsWith hif
  unfold conditional
  refine .next_bind ((he ts).bind fun condition own mid hcondition => ?_)
  refine (hb mid).bind_pure fun body more hbody => ?_
  exact .cons (.token ht) (hcondition.append hbody)

include hb he in
theorem spells_caseArm (hcase : startsWith "case" ts = true) :
    Spends (caseArm block expression) ts fun c own => Spelled own (Case.allWords [c]) := by
  obtain ⟨t, ts, rfl, ht⟩ := eq_cons_of_startsWith hcase
  unfold caseArm
  refine .next_bind ((he ts).bind fun e own mid hvalue => ?_)
  split
  . refine (hb mid).bind_pure fun body more hbody => ?_
    exact (Spelled.cons (.token ht) (hvalue.append hbody)).of_eq rfl (List.append_nil _)
  . exact .fail _ _

include hb in
theorem spells_defaultArm : Spells Case.allWords (defaultArm block) := by
  intro ts
  unfold defaultArm
  refine .peekWord_bind (.ite (fun hdefault => ?_) fun _ => .pure .nil)
  obtain ⟨t, ts, rfl, ht⟩ := eq_cons_of_startsWith hdefault
  refine .next_bind ((hb ts).bind_pure fun body own hbody => ?_)
  exact (Spelled.cons (.token ht) hbody).of_eq rfl (List.append_nil _)

include hb he in
theorem spells_switch (hswitch : startsWith "switch" ts = true) :
    Spends (switch block expression) ts fun r own => Spelled own r.words := by
  obtain ⟨t, ts, rfl, ht⟩ := eq_cons_of_startsWith hswitch
  have harms : Spells Case.allWords (repeatWhile (peekWord "case") (caseArm block expression)) := by
    refine .repeatWhile (peeks_peekWord _) (fun _ => spells_caseArm hb he) .nil ?_
    intro c cs own more hc hcs
    exact (hc.append hcs).of_eq rfl (Case.allWords_append [c] cs)
  unfold switch
  refine .next_bind ((he ts).bind fun subject own ts₁ hsubject => ?_)
  refine (harms ts₁).bind fun arms more ts₂ harms => ?_
  refine (spells_defaultArm hb ts₂).bind fun default last ts₃ hdefault => ?_
  split
  . exact .fail _ _
  . refine .pure ?_
    rw [List.append_nil]
    have hcases := (harms.append hdefault).of_eq rfl (Case.allWords_append arms default)
    exact .cons (.token ht) (hsubject.append hcases)

include hb he in
theorem spells_loop (hfor : startsWith "for" ts = true) :
    Spends (loop block expression) ts fun r own => Spelled own r.words := by
  obtain ⟨t, ts, rfl, ht⟩ := eq_cons_of_startsWith hfor
  unfold loop
  refine .next_bind ((hb ts).bind fun pre own₁ ts₁ hpre => ?_)
  refine (he ts₁).bind fun condition own₂ ts₂ hcondition => ?_
  refine (hb ts₂).bind fun post own₃ ts₃ hpost => ?_
  refine (hb ts₃).bind_pure fun body own₄ hbody => ?_
  have hparts := ((hpre.append hcondition).append hpost).append hbody
  refine (Spelled.cons (.token ht) hparts).of_eq ?_ rfl
  simp only [List.append_assoc]

include he in
theorem spells_simple : Spells Stmt.words (simple s expression) := by
  intro ts
  unfold simple
  refine (he ts).bind fun e own ts₁ hfirst => .peekKind_bind ?_
  have hexpression : Spelled (own ++ []) e.words := by
    rw [List.append_nil]
    exact hfirst
  split
  . refine .ite (fun _ => ?_) fun _ => .pure hexpression
    refine (spells_others (spells_name _ _) ts₁).bind fun others more ts₂ hothers => ?_
    refine (spells_expect .assign (fun _ h => h) _ ts₂).bind fun _ own₃ ts₃ hassign => ?_
    refine (he ts₃).bind_pure fun value last hvalue => ?_
    refine ((hfirst.append hothers).append (hassign.append hvalue)).of_eq ?_ ?_
    . simp only [List.append_assoc]
    . simp only [Stmt.words, Expr.words, Word.separated, List.map_cons, List.flatMap_map]
      rfl
  . exact .pure hexpression

include hb he in
theorem spells_statement : Spells Stmt.words (statement s block expression) := by
  intro ts
  unfold statement
  refine .get_bind ?_
  have hopens := Form.opens_ofTokens s.dialect ts
  cases hform : Form.ofTokens s.dialect ts with rw [hform] at hopens
  | block => exact (hb ts).bind_pure fun b own hblock => hblock
  | stackAssignment => exact spells_stackAssignment hopens.1
  | declaration => exact spells_declaration he hopens
  | function => exact spells_function hb hopens
  | conditional => exact spells_conditional hb he hopens
  | switch => exact spells_switch hb he hopens
  | loop => exact spells_loop hb he hopens
  | strayCase => exact (spends_next ts).bind fun _ _ _ _ => .fail _ _
  | label => exact spells_label hopens.2.2
  | instruction => exact spells_instruction hopens
  | simple => exact spells_simple he ts

end

/-! ## Blocks -/

theorem spells_statements (start : Span) {p : Parse Stmt} (hp : Spells Stmt.words p) :
    Spells Stmt.allWords (repeatWhile (inBlock start) p) :=
  .repeatWhile (peeks_inBlock start) (fun ts _ => hp ts) .nil
    fun _ _ _ _ hx hxs => hx.append hxs

theorem spells_block (depth : Nat) : Spells Block.words (block s depth) := by
  induction depth with
  | zero =>
    intro ts
    unfold block
    exact (spends_expect _ _ ts).bind fun _ _ _ _ => .fail _ _
  | succ depth ih =>
    intro ts
    have hstatement : Spells Stmt.words (statement s (block s depth) (expression s depth)) :=
      spells_statement ih (spells_expression depth)
    unfold block
    refine (spells_expect .leftBrace (fun _ h => h) _ ts).bind fun start own mid hstart => ?_
    refine (spells_statements start.span hstatement mid).bind_run fun ss inner last hrun _ hss => ?_
    obtain ⟨close, us, rfl, hk⟩ := eq_cons_of_run_statements hrun
    refine .next_bind (.pure ?_)
    exact hstart.append (hss.append (.of_kind hk fun _ h => h))

end Parser

theorem map_word_of_parseTokens {d : Dialect} {ts : List Token} {b : Block}
    (hts : ∀ w ∈ ts.map Token.word, w.Lexed) (h : parseTokens d ts = .ok b) :
    ts.map Token.word = b.words := by
  have hwords := (Parser.spells_block _).consumes ts b [] hts (parseTokens_eq_ok.1 h)
  rwa [List.map_nil, List.append_nil] at hwords

end Splice
