import Mathlib.Data.List.Basic
import Splice.Proofs.Syntax.Parsed
import Splice.Proofs.Tree.Outline

/-!
This module contains the proof that the spans of a tree are those of the tokens it was read from.
Each node has consecutive tokens, those of the nodes in it among them, and its span goes from the
first to the last of them, a type at its end aside.
-/

namespace Splice

namespace Outline

/-! ## Tokens of a node -/

def TypeTokens (annotated : Bool) (ts : List Token) : Prop :=
  if annotated then ts.map Token.kind = [.colon, .identifier] else ts = []

def Starts (p : Position) (ts : List Token) : Prop :=
  ∃ t ∈ ts.head?, t.span.start = p

def Ends (p : Position) (annotated : Bool) (ts : List Token) : Prop :=
  ∃ own typing, ts = own ++ typing ∧ TypeTokens annotated typing ∧
    ∃ t ∈ own.getLast?, t.span.stop = p

mutual

/--
The tokens of the node are `ts`, and its span goes from the first to the last of them.
-/
inductive Covers : Outline → List Token → Prop
  | mk {span : Span} {annotated : Bool} {parts : List Outline} {ts : List Token}
    (hstart : Starts span.start ts) (hstop : Ends span.stop annotated ts)
    (hparts : AllIn parts ts) : Covers (.mk span annotated parts) ts

inductive AllIn : List Outline → List Token → Prop
  | nil (ts : List Token) : AllIn [] ts
  | cons {o : Outline} {os : List Outline} (gap : List Token) {own rest : List Token}
    (ho : o.Covers own) (hos : AllIn os rest) : AllIn (o :: os) (gap ++ own ++ rest)

end

variable {o : Outline} {os ps : List Outline} {p : Position} {annotated : Bool} {t : Token}
  {ts us : List Token}

theorem Starts.append (h : Starts p ts) (us : List Token) : Starts p (ts ++ us) := by
  obtain ⟨t, ht, hp⟩ := h
  exact ⟨t, List.mem_head?_append_of_mem_head? ht, hp⟩

theorem Ends.behind (h : Ends p annotated us) (ts : List Token) : Ends p annotated (ts ++ us) := by
  obtain ⟨own, typing, rfl, hsuffix, t, ht, hp⟩ := h
  exact ⟨ts ++ own, typing, (List.append_assoc ..).symm, hsuffix, t,
    List.mem_getLast?_append_of_mem_getLast? ht, hp⟩

theorem ends_token (ts : List Token) (t : Token) : Ends t.span.stop false (ts ++ [t]) :=
  ⟨ts ++ [t], [], (List.append_nil _).symm, rfl, t, List.getLast?_concat, rfl⟩

theorem Covers.starts (h : o.Covers ts) : Starts o.span.start ts := by
  cases h with
  | mk hstart _ _ => exact hstart

theorem Covers.ends (h : o.Covers ts) : Ends o.span.stop o.annotated ts := by
  cases h with
  | mk _ hstop _ => exact hstop

theorem covers_token (t : Token) {typing : List Token} (h : TypeTokens annotated typing) :
    (mk t.span annotated []).Covers (t :: typing) :=
  .mk ⟨t, rfl, rfl⟩ ⟨[t], typing, rfl, h, t, rfl, rfl⟩ (.nil _)

theorem covers_identifier {i : Identifier} (h : i.span = t.span) : i.outline.Covers [t] := by
  unfold Identifier.outline
  rw [h]
  exact covers_token t rfl

theorem AllIn.behind (h : AllIn os us) (ts : List Token) : AllIn os (ts ++ us) := by
  cases h with
  | nil => exact .nil _
  | cons gap ho hos =>
    have := AllIn.cons (ts ++ gap) ho hos
    simpa only [List.append_assoc] using this

theorem AllIn.append (h : AllIn os ts) (hps : AllIn ps us) : AllIn (os ++ ps) (ts ++ us) := by
  induction os generalizing ts with
  | nil => exact hps.behind ts
  | cons o os ih =>
    cases h with
    | cons gap ho hos =>
      rw [List.append_assoc]
      exact .cons gap ho (ih hos)

theorem AllIn.ahead (h : AllIn os ts) (us : List Token) : AllIn os (ts ++ us) := by
  have := h.append (.nil us)
  rwa [List.append_nil] at this

theorem Covers.of_eq (h : o.Covers ts) (hts : us = ts) : o.Covers us := hts ▸ h

theorem Covers.allIn (h : o.Covers ts) : AllIn [o] ts := by
  have := AllIn.cons [] h (.nil [])
  rwa [List.append_nil] at this

structure Row (os : List Outline) (ts : List Token) : Prop where
  allIn : AllIn os ts
  nothing : os = [] → ts = []
  ends : ∀ o ∈ os.getLast?, Ends o.span.stop o.annotated ts

namespace Row

theorem nil : Row [] [] := ⟨.nil [], fun _ => rfl, nofun⟩

theorem append (h : Row os ts) (hps : Row ps us) : Row (os ++ ps) (ts ++ us) where
  allIn := h.allIn.append hps.allIn
  nothing := by
    intro hnil
    obtain ⟨hos, hps'⟩ := List.append_eq_nil_iff.1 hnil
    rw [h.nothing hos, hps.nothing hps', List.append_nil]
  ends := by
    intro o ho
    cases ps with
    | nil =>
      rw [hps.nothing rfl, List.append_nil]
      rw [List.append_nil] at ho
      exact h.ends o ho
    | cons p ps =>
      rw [List.getLast?_append_cons] at ho
      exact (hps.ends o ho).behind ts

theorem cons (gap : List Token) (h : o.Covers ts) (hos : Row os us) :
    Row (o :: os) (gap ++ ts ++ us) := by
  have hone : Row [o] (gap ++ ts) := by
    refine ⟨h.allIn.behind gap, fun hnil => absurd hnil (List.cons_ne_nil _ _), ?_⟩
    rintro _ ⟨⟩
    exact h.ends.behind gap
  exact hone.append hos

end Row
end Outline

theorem Block.ends {b : Block} {ts : List Token} (h : b.outline.Covers ts) :
    Outline.Ends b.span.stop false ts := by
  obtain ⟨span, ss⟩ := b
  exact h.ends

namespace Parser

/-! ## Parsers -/

def Outlines {α : Type} (outline : α → Outline) (p : Parse α) : Prop :=
  ∀ ts, Spends p ts fun a own => (outline a).Covers own

variable {s : Setting}

/-! ## Names and lists -/

theorem outlines_name (what : String) (instructions : Bool) :
    Outlines Identifier.outline (name s what instructions) := by
  intro ts
  refine (spends_name what instructions ts).imp ?_
  rintro i _ ⟨t, rfl, _, hspan⟩
  exact Outline.covers_identifier hspan

section

variable {α : Type} {p : Parse α} {outline : α → Outline} (hp : Outlines outline p)

include hp

theorem spends_others (ts : List Token) :
    Spends (repeatWhile atComma (behindComma p)) ts fun as own =>
      Outline.Row (as.map outline) own := by
  have hround : ∀ ts, decide (firstKind? ts = some .comma) = true →
      Spends (behindComma p) ts fun a own => ∃ gap mine, own = gap ++ mine ∧
        (outline a).Covers mine := by
    intro ts hcomma
    obtain ⟨comma, us, rfl, _⟩ := eq_cons_of_firstKind? (of_decide_eq_true hcomma)
    unfold behindComma
    exact .skip_bind ((hp us).imp fun a own ha => ⟨[comma], own, rfl, ha⟩)
  refine .repeatWhile peeks_atComma hround .nil ?_ ts
  rintro a as _ more ⟨gap, mine, rfl, ha⟩ has
  exact .cons gap ha has

theorem spends_commaSeparated (ts : List Token) :
    Spends (commaSeparated p) ts fun as own => as ≠ [] ∧ Outline.Row (as.map outline) own := by
  unfold commaSeparated
  refine (hp ts).bind fun a own mid ha => ?_
  refine (spends_others hp mid).bind_pure fun as others has => ?_
  exact ⟨List.cons_ne_nil a as, .cons [] ha has⟩

theorem spends_items (ts : List Token) :
    Spends (items p) ts fun as own => Outline.AllIn (as.map outline) own := by
  unfold items
  refine .peekKind_bind (.ite (fun _ => .pure (.nil [])) fun _ => ?_)
  exact (spends_commaSeparated hp ts).imp fun _ _ has => has.2.allIn

end

/-! ## Variables and expressions -/

theorem spends_typeSuffix (ts : List Token) :
    Spends (typeSuffix s) ts fun type own => Outline.TypeTokens type.isSome own := by
  unfold typeSuffix
  refine .peekKind_bind (.ite (fun hc => ?_) fun _ => .pure rfl)
  simp only [Bool.and_eq_true, decide_eq_true_eq] at hc
  obtain ⟨colon, us, rfl, hcolon⟩ := eq_cons_of_firstKind? hc.2
  refine .skip_bind ((spends_name _ _ us).bind_pure ?_)
  rintro i _ ⟨t, rfl, hword, _⟩
  have hname : t.kind = .identifier := congrArg Prod.fst hword
  change [colon.kind, t.kind] = [.colon, .identifier]
  rw [hcolon, hname]

theorem outlines_binder : Outlines Binder.outline (binder s) := by
  intro ts
  unfold binder
  refine (spends_name _ _ ts).bind ?_
  rintro i _ rest ⟨t, rfl, _, hspan⟩
  refine (spends_typeSuffix rest).bind_pure fun type typing htype => ?_
  rw [Binder.outline, hspan]
  exact Outline.covers_token t htype

theorem spends_literal (kind : LiteralKind) (t : Token) (ts : List Token) :
    Spends (literal s kind) (t :: ts) fun e own => e.outline.Covers own := by
  unfold literal
  refine .next_bind ((spends_typeSuffix ts).bind_pure fun type typing htype => ?_)
  exact Outline.covers_token t htype

section

variable {expression : Parse Expr}
  (he : Outlines Expr.outline expression)

include he

theorem spends_arguments (ts : List Token) :
    Spends (arguments s expression) ts fun r own =>
      ∃ inner, own = inner ++ [r.2] ∧ Outline.AllIn (Expr.outlines r.1) inner := by
  unfold arguments
  refine (spends_items he ts).bind fun es inner mid hes => (spends_expect _ _ mid).bind_pure ?_
  rintro close _ ⟨rfl, _⟩
  refine ⟨inner, rfl, ?_⟩
  rwa [Expr.outlines_eq_map]

theorem outlines_named : Outlines Expr.outline (named s expression) := by
  intro ts
  unfold named
  refine (spends_name _ _ ts).bind ?_
  rintro i _ mid ⟨t, rfl, _, hspan⟩
  have hi : i.outline.Covers [t] := Outline.covers_identifier hspan
  refine .peekKind_bind (.ite (fun hpeek => ?_) fun _ => .pure hi)
  obtain ⟨paren, us, rfl, _⟩ := eq_cons_of_firstKind? hpeek
  refine .skip_bind ((spends_arguments he us).bind ?_)
  rintro ⟨es, close⟩ _ _ ⟨inner, rfl, hes⟩
  have hstart : Outline.Starts (i.span.join close.span).start
      ([t] ++ paren :: (inner ++ [close])) :=
    hi.starts.append _
  have hstop : Outline.Ends (i.span.join close.span).stop false
      ([t] ++ paren :: (inner ++ [close])) :=
    Outline.ends_token ([t] ++ paren :: inner) close
  have harguments : Outline.AllIn (Expr.outlines es) (paren :: (inner ++ [close])) :=
    (hes.ahead [close]).behind [paren]
  refine .ite (fun _ => .pure ?_) fun _ => .pure ?_
  . rw [List.append_nil]
    exact .mk hstart hstop (harguments.behind [t])
  . rw [List.append_nil]
    exact .mk hstart hstop (hi.allIn.append harguments)

end

theorem outlines_expression (depth : Nat) : Outlines Expr.outline (expression s depth) := by
  intro ts
  induction depth generalizing ts with
  | zero => exact .get_bind (.fail _ _)
  | succ depth ih =>
    unfold expression
    refine .peekKind_bind ?_
    split
    . next hkind =>
      obtain ⟨t, us, rfl, _⟩ := eq_cons_of_firstKind? hkind
      exact spends_literal .number t us
    . next hkind =>
      obtain ⟨t, us, rfl, _⟩ := eq_cons_of_firstKind? hkind
      exact spends_literal .string t us
    . next hkind =>
      obtain ⟨t, us, rfl, _⟩ := eq_cons_of_firstKind? hkind
      refine .peekWord_bind (.peekWord_bind (.ite (fun _ => ?_) fun _ => outlines_named ih _))
      exact spends_literal .boolean t us
    . exact (spends_next ts).bind fun _ _ _ _ => .fail _ _
    . exact .fail _ _

/-! ## Statements -/

section

variable {block : Parse Block} {expression : Parse Expr}

theorem covers_of_ends {last : Span} {annotated : Bool} {parts : List Outline} (t : Token)
    (gap : List Token) {own : List Token} (hends : Outline.Ends last.stop annotated own)
    (hparts : Outline.AllIn parts (gap ++ own)) :
    (Outline.mk (t.span.join last) annotated parts).Covers (t :: (gap ++ own)) :=
  .mk ⟨t, rfl, rfl⟩ (hends.behind (t :: gap)) (hparts.behind [t])

theorem outlines_stackAssignment : Outlines Stmt.outline (stackAssignment s) := by
  intro ts
  unfold stackAssignment
  refine (spends_next ts).bind ?_
  rintro t _ mid rfl
  refine (outlines_name _ _ mid).bind_pure fun i own hi => ?_
  exact covers_of_ends t [] hi.ends hi.allIn

theorem outlines_label : Outlines Stmt.outline (label s) := by
  intro ts
  unfold label
  refine (spends_name _ _ ts).bind ?_
  rintro i _ mid ⟨name, rfl, _, hspan⟩
  refine (spends_next mid).bind_pure ?_
  rintro colon _ rfl
  have hlabel := covers_of_ends name [] (Outline.ends_token [] colon) (.nil _)
  rw [← hspan] at hlabel
  exact hlabel

theorem outlines_instruction : Outlines Stmt.outline instruction := by
  intro ts
  unfold instruction
  refine (spends_next ts).bind_pure ?_
  rintro t _ rfl
  exact Outline.covers_token t rfl

theorem outlines_declaration (he : Outlines Expr.outline expression) :
    Outlines Stmt.outline (declaration s expression) := by
  intro ts
  unfold declaration
  refine (spends_next ts).bind ?_
  rintro t _ us rfl
  refine (spends_commaSeparated outlines_binder us).bind ?_
  rintro vars own mid ⟨hne, hrow⟩
  refine .peekKind_bind (.ite (fun hpeek => ?_) fun _ => ?_)
  . obtain ⟨assign, us, rfl, _⟩ := eq_cons_of_firstKind? hpeek
    refine .skip_bind ((he us).bind_pure fun value more hvalue => ?_)
    have hends : Outline.Ends value.span.stop value.outline.annotated more :=
      value.span_outline ▸ hvalue.ends
    refine covers_of_ends t own (hends.behind [assign]) ?_
    exact hrow.allIn.append (hvalue.allIn.behind [assign])
  . obtain ⟨init, last, rfl⟩ : ∃ init last, vars = init ++ [last] :=
      ⟨_, _, (List.dropLast_concat_getLast hne).symm⟩
    have hends : Outline.Ends last.span.stop last.type.isSome own :=
      hrow.ends last.outline (by simp)
    refine .pure ?_
    rw [List.append_nil, Stmt.outline, List.getLast?_concat]
    exact covers_of_ends t [] hends hrow.allIn

theorem spends_returns (ts : List Token) :
    Spends (returns s) ts fun xs own => Outline.AllIn (xs.map Binder.outline) own := by
  unfold returns
  refine .peekKind_bind (.ite (fun hpeek => ?_) fun _ => .pure (.nil []))
  obtain ⟨arrow, us, rfl, _⟩ := eq_cons_of_firstKind? hpeek
  refine .skip_bind ((spends_commaSeparated outlines_binder us).imp ?_)
  exact fun _ _ hxs => hxs.2.allIn.behind [arrow]

theorem outlines_function (hb : Outlines Block.outline block) :
    Outlines Stmt.outline (function s block) := by
  intro ts
  unfold function
  refine (spends_next ts).bind ?_
  rintro t _ ts₀ rfl
  refine (spends_name _ _ ts₀).bind ?_
  rintro i _ ts₁ ⟨name, rfl, _, _⟩
  refine (spends_expect _ _ ts₁).bind ?_
  rintro left _ ts₂ ⟨rfl, _⟩
  refine (spends_items outlines_binder ts₂).bind fun parameters own ts₃ hparameters => ?_
  refine (spends_expect _ _ ts₃).bind ?_
  rintro right _ ts₄ ⟨rfl, _⟩
  refine (spends_returns ts₄).bind fun returns more ts₅ hreturns => ?_
  refine (hb ts₅).bind_pure fun body last hbody => ?_
  have hparts := ((hparameters.behind [name, left]).append (hreturns.behind [right])).append
    hbody.allIn
  refine (covers_of_ends t _ (Block.ends hbody) hparts).of_eq ?_
  simp

theorem outlines_conditional (hb : Outlines Block.outline block)
    (he : Outlines Expr.outline expression) :
    Outlines Stmt.outline (conditional block expression) := by
  intro ts
  unfold conditional
  refine (spends_next ts).bind ?_
  rintro t _ ts₀ rfl
  refine (he ts₀).bind fun condition own ts₁ hcondition => ?_
  refine (hb ts₁).bind_pure fun body more hbody => ?_
  exact covers_of_ends t own (Block.ends hbody) (hcondition.allIn.append hbody.allIn)

theorem outlines_caseArm (hb : Outlines Block.outline block)
    (he : Outlines Expr.outline expression) :
    Outlines Case.outline (caseArm block expression) := by
  intro ts
  unfold caseArm
  refine (spends_next ts).bind ?_
  rintro t _ ts₀ rfl
  refine (he ts₀).bind fun e own ts₁ hvalue => ?_
  split
  . refine (hb ts₁).bind_pure fun body more hbody => ?_
    exact covers_of_ends t own (Block.ends hbody) (hvalue.allIn.append hbody.allIn)
  . exact .fail _ _

theorem spends_caseArms (hb : Outlines Block.outline block) (he : Outlines Expr.outline expression)
    (ts : List Token) :
    Spends (repeatWhile (peekWord "case") (caseArm block expression)) ts fun cs own =>
      Outline.Row (cs.map Case.outline) own :=
  .repeatWhile (peeks_peekWord _) (fun ts _ => outlines_caseArm hb he ts) .nil
    (fun _ _ _ _ hc hcs => .cons [] hc hcs) ts

theorem spends_defaultArm (hb : Outlines Block.outline block) (ts : List Token) :
    Spends (defaultArm block) ts fun cs own => Outline.Row (cs.map Case.outline) own := by
  unfold defaultArm
  refine .peekWord_bind (.ite (fun _ => ?_) fun _ => .pure .nil)
  refine (spends_next ts).bind ?_
  rintro t _ us rfl
  refine (hb us).bind_pure fun body own hbody => ?_
  have hcase : (Case.outline ⟨t.span.join body.span, none, body⟩).Covers (t :: own) :=
    covers_of_ends t [] (Block.ends hbody) hbody.allIn
  have := Outline.Row.cons [] hcase .nil
  simpa using this

theorem outlines_switch (hb : Outlines Block.outline block)
    (he : Outlines Expr.outline expression) :
    Outlines Stmt.outline (switch block expression) := by
  intro ts
  unfold switch
  refine (spends_next ts).bind ?_
  rintro t _ ts₀ rfl
  refine (he ts₀).bind fun subject own ts₁ hsubject => ?_
  refine (spends_caseArms hb he ts₁).bind fun arms more ts₂ harms => ?_
  refine (spends_defaultArm hb ts₂).bind fun default last ts₃ hdefault => ?_
  have hrow := harms.append hdefault
  rw [← List.map_append] at hrow
  split
  . exact .fail _ _
  . next c hc =>
    obtain ⟨span, value, body⟩ := c
    have hc : Case.outline ⟨span, value, body⟩ ∈ ((arms ++ default).map Case.outline).getLast? := by
      rw [List.getLast?_map, hc]
      rfl
    have hends : Outline.Ends span.stop false (more ++ last) := hrow.ends _ hc
    have hparts := hsubject.allIn.append hrow.allIn
    rw [← Case.outlines_eq_map] at hparts
    refine .pure ((covers_of_ends t own hends hparts).of_eq ?_)
    simp

theorem outlines_loop (hb : Outlines Block.outline block)
    (he : Outlines Expr.outline expression) :
    Outlines Stmt.outline (loop block expression) := by
  intro ts
  unfold loop
  refine (spends_next ts).bind ?_
  rintro t _ ts₀ rfl
  refine (hb ts₀).bind fun pre own₁ ts₁ hpre => ?_
  refine (he ts₁).bind fun condition own₂ ts₂ hcondition => ?_
  refine (hb ts₂).bind fun post own₃ ts₃ hpost => ?_
  refine (hb ts₃).bind_pure fun body own₄ hbody => ?_
  have hparts := ((hpre.allIn.append hcondition.allIn).append hpost.allIn).append hbody.allIn
  refine (covers_of_ends t (own₁ ++ own₂ ++ own₃) (Block.ends hbody) hparts).of_eq ?_
  simp

theorem outlines_simple (he : Outlines Expr.outline expression) :
    Outlines Stmt.outline (simple s expression) := by
  intro ts
  unfold simple
  refine (he ts).bind fun e own ts₁ hfirst => .peekKind_bind ?_
  split
  . next first =>
    refine .ite (fun _ => ?_) fun _ => .pure (by rwa [List.append_nil])
    refine (spends_others (outlines_name _ _) ts₁).bind fun others more ts₂ hothers => ?_
    refine (spends_expect _ _ ts₂).bind ?_
    rintro assign _ ts₃ ⟨rfl, _⟩
    refine (he ts₃).bind_pure fun value last hvalue => ?_
    have hends : Outline.Ends value.span.stop value.outline.annotated last :=
      value.span_outline ▸ hvalue.ends
    have hstart := (hfirst.starts.append more).append ([assign] ++ last)
    have hstop := (hends.behind [assign]).behind (own ++ more)
    have hparts := (hfirst.allIn.append hothers.allIn).append (hvalue.allIn.behind [assign])
    refine Outline.Covers.of_eq (.mk hstart hstop hparts) ?_
    simp
  . exact .pure (by rwa [List.append_nil])

theorem outlines_statement (hb : Outlines Block.outline block)
    (he : Outlines Expr.outline expression) :
    Outlines Stmt.outline (statement s block expression) := by
  intro ts
  unfold statement
  refine .get_bind ?_
  cases Form.ofTokens s.dialect ts with
  | block => exact (hb ts).bind_pure fun b own hblock => hblock
  | stackAssignment => exact outlines_stackAssignment ts
  | declaration => exact outlines_declaration he ts
  | function => exact outlines_function hb ts
  | conditional => exact outlines_conditional hb he ts
  | switch => exact outlines_switch hb he ts
  | loop => exact outlines_loop hb he ts
  | strayCase => exact (spends_next ts).bind fun _ _ _ _ => .fail _ _
  | label => exact outlines_label ts
  | instruction => exact outlines_instruction ts
  | simple => exact outlines_simple he ts

end

/-! ## Blocks -/

theorem spends_statements (start : Span) {p : Parse Stmt} (hp : Outlines Stmt.outline p)
    (ts : List Token) :
    Spends (repeatWhile (inBlock start) p) ts fun ss own =>
      Outline.AllIn (Stmt.outlines ss) own :=
  .repeatWhile (peeks_inBlock start) (fun ts _ => hp ts) (.nil [])
    (fun _ _ _ _ hx hxs => .cons [] hx hxs) ts

theorem outlines_block (depth : Nat) : Outlines Block.outline (block s depth) := by
  intro ts
  induction depth generalizing ts with
  | zero =>
    unfold block
    exact (spends_expect _ _ ts).bind fun _ _ _ _ => .fail _ _
  | succ depth ih =>
    have hstatement := outlines_statement (s := s) ih (outlines_expression (s := s) depth)
    unfold block
    refine (spends_expect _ _ ts).bind ?_
    rintro start _ mid ⟨rfl, _⟩
    refine (spends_statements _ hstatement mid).bind fun ss inner last hss => ?_
    refine (spends_next last).bind_pure ?_
    rintro close _ rfl
    exact covers_of_ends start inner (Outline.ends_token [] close) (hss.ahead [close])

end Parser

/--
The tokens of a source text are those of its program. Each node of the tree has consecutive ones,
the nodes in it have theirs among them, one behind the other, and the span of the node goes from the
start of its first token to the end of its last one. A type at the end of a variable, a literal or
what ends with one of these does not count.
-/
theorem parse_spans {d : Dialect} {source : String} {b : Block} (h : parse d source = .ok b) :
    b.outline.Covers (lex source).1 ∧ b.outline.spans = b.spans := by
  have hrun := parseTokens_eq_ok.1 (parse_eq_ok.1 h).1
  obtain ⟨own, hown, hcovers⟩ := Parser.outlines_block _ _ b [] hrun
  rw [hown, List.append_nil]
  exact ⟨hcovers, b.spans_outline⟩

/--
Types at the end of a declaration, of an argument, of the value of a case and of an assignment.
-/
theorem parse_spans_types : ∃ b,
    parse .typed ("\x7b let a, b:u8 switch f(true:bool) case 1:u8 " ++
      "\x7b a := 0x1:u8 \x7d default \x7b\x7d \x7d") = .ok b ∧
    b.outline.Covers (lex ("\x7b let a, b:u8 switch f(true:bool) case 1:u8 " ++
      "\x7b a := 0x1:u8 \x7d default \x7b\x7d \x7d")).1 ∧
    b.outline.spans = b.spans := by
  have hparse : (parse .typed ("\x7b let a, b:u8 switch f(true:bool) case 1:u8 " ++
      "\x7b a := 0x1:u8 \x7d default \x7b\x7d \x7d")).isOk = true := by
    decide +kernel
  obtain ⟨b, hb⟩ := exists_of_isOk hparse
  exact ⟨b, hb, parse_spans hb⟩

end Splice
