import Mathlib.Data.List.Infix
import Splice.Proofs.Syntax.Primitives

/-!
This module contains what each step of the parser does with the tokens that are left: it takes some
of them off the front and reports nothing, or it gives up and reports one error, which names a place
among the tokens. So no step gives up without a word, and no loop ends because its rounds are used
up: each round takes a token.
-/

namespace Splice

/--
The place is named by the tokens: it goes from the start of one of them to the end of one of them.
-/
def Span.Among (span : Span) (ts : List Token) : Prop :=
  ∃ t ∈ ts, ∃ u ∈ ts, span = t.span.join u.span

namespace Parser

/--
A syntax error names a place among the tokens, or none if there are no tokens.
-/
def Blames (all : List Token) (e : SyntaxError) : Prop :=
  e.span.Among all ∨ all = [] ∧ e.span = .none

/--
Where the tokens `ts` are left of `all`, the parser takes at least `least` of them and returns
something `good` without reporting anything, or it returns nothing and reports one error, which
blames a place among `all`.
-/
def Steps {α : Type} (all : List Token) (least : Nat) (p : Parse α) (good : α → Prop)
    (ts : List Token) : Prop :=
  ts <:+ all →
    (∃ a rest, p.run ts = .ok (a, rest) ∧ good a ∧ rest <:+ ts ∧
      rest.length + least ≤ ts.length) ∨
    ∃ e, p.run ts = .failed e ∧ Blames all e

theorem among_self {all : List Token} {t : Token} (h : t ∈ all) : t.span.Among all :=
  ⟨t, h, t, h, rfl⟩

theorem run_bind_of_ok {α β : Type} {p : Parse α} {f : α → Parse β} {a : α}
    {ts mid : List Token} (h : p.run ts = .ok (a, mid)) : (p >>= f).run ts = (f a).run mid := by
  rw [StateT.run_bind, h]
  rfl

theorem run_bind_of_failed {α β : Type} {p : Parse α} {f : α → Parse β} {e : SyntaxError}
    {ts : List Token} (h : p.run ts = .failed e) : (p >>= f).run ts = .failed e := by
  rw [StateT.run_bind, h]
  rfl

namespace Steps

variable {α β : Type} {all ts : List Token} {n : Nat} {p : Parse α} {f : α → Parse β}
  {P P' : α → Prop} {Q : β → Prop}

theorem pure {a : α} (h : P a) : Steps all 0 (Pure.pure a) P ts :=
  fun _ => .inl ⟨a, ts, rfl, h, List.suffix_refl ts, Nat.le_refl _⟩

theorem fail {fault : SyntaxFault} {span : Span} (h : Blames all ⟨fault, span⟩) :
    Steps all n (fail fault span) P ts :=
  fun _ => .inr ⟨⟨fault, span⟩, run_fail fault span ts, h⟩

theorem bind_run (hp : Steps all n p P ts)
    (hf : ∀ a rest, p.run ts = .ok (a, rest) → P a → rest <:+ all →
      rest.length + n ≤ ts.length → Steps all 0 (f a) Q rest) :
    Steps all n (p >>= f) Q ts := by
  intro hts
  obtain ⟨a, mid, hrun, ha, hmid, hlength⟩ | ⟨e, hrun, hblames⟩ := hp hts
  . have hall := hmid.trans hts
    rw [run_bind_of_ok hrun]
    obtain ⟨b, rest, hrest, hb, hsuffix, hle⟩ | hfailed := hf a mid hrun ha hall hlength hall
    . refine .inl ⟨b, rest, hrest, hb, hsuffix.trans hmid, ?_⟩
      omega
    . exact .inr hfailed
  . exact .inr ⟨e, run_bind_of_failed hrun, hblames⟩

theorem bind (hp : Steps all n p P ts)
    (hf : ∀ a rest, P a → rest <:+ all → rest.length + n ≤ ts.length → Steps all 0 (f a) Q rest) :
    Steps all n (p >>= f) Q ts :=
  hp.bind_run fun a rest _ => hf a rest

theorem imp (hp : Steps all n p P ts) (hP : ∀ a, P a → P' a) : Steps all n p P' ts := by
  intro hts
  obtain ⟨a, rest, hrun, ha, hrest⟩ | hfailed := hp hts
  . exact .inl ⟨a, rest, hrun, hP a ha, hrest⟩
  . exact .inr hfailed

theorem weaken (hp : Steps all n p P ts) : Steps all 0 p P ts := by
  intro hts
  obtain ⟨a, rest, hrun, ha, hsuffix, hle⟩ | hfailed := hp hts
  . exact .inl ⟨a, rest, hrun, ha, hsuffix, Nat.le_of_add_right_le hle⟩
  . exact .inr hfailed

theorem of_suffix (h : ts <:+ all → Steps all n p P ts) : Steps all n p P ts :=
  fun hts => h hts hts

theorem get_bind {f : List Token → Parse β} (h : Steps all n (f ts) Q ts) :
    Steps all n (get >>= f) Q ts := h

theorem peekKind_bind {f : Option TokenKind → Parse β} (h : Steps all n (f (firstKind? ts)) Q ts) :
    Steps all n (peekKind >>= f) Q ts := h

theorem peekWord_bind {word : String} {f : Bool → Parse β}
    (h : Steps all n (f (startsWith word ts)) Q ts) : Steps all n (peekWord word >>= f) Q ts := h

theorem ite {c : Prop} [Decidable c] {q : Parse α} (hp : c → Steps all n p P ts)
    (hq : ¬c → Steps all n q P ts) : Steps all n (if c then p else q) P ts := by
  split
  . next h => exact hp h
  . next h => exact hq h

theorem skip (h : ts ≠ []) : Steps all 1 skip (fun _ => True) ts := by
  intro _
  cases ts with
  | nil => contradiction
  | cons t rest => exact .inl ⟨(), rest, rfl, trivial, List.suffix_cons t rest, Nat.le_refl _⟩

theorem next (h : ts ≠ []) : Steps all 1 next (· ∈ all) ts := by
  intro hts
  cases ts with
  | nil => contradiction
  | cons t rest =>
    have ht : t ∈ all := hts.subset List.mem_cons_self
    exact .inl ⟨t, rest, run_next t rest, ht, List.suffix_cons t rest, Nat.le_refl _⟩

/--
A loop whose rounds take tokens has rounds enough.
-/
theorem repeatWhile {goesOn : Parse Bool} {look : List Token → Bool} (hpeeks : Peeks goesOn look)
    (hgoesOn : ∀ ts, Steps all 0 goesOn (fun _ => True) ts)
    (hp : ∀ ts, look ts = true → Steps all 1 p P ts) (ts : List Token) :
    Steps all 0 (repeatWhile goesOn p) (fun as => ∀ a ∈ as, P a) ts := by
  have hgo : ∀ rounds ts, ts.length < rounds →
      Steps all 0 (Parser.repeatWhile.go goesOn p rounds) (fun as => ∀ a ∈ as, P a) ts := by
    intro rounds
    induction rounds with
    | zero => exact fun ts h => absurd h (Nat.not_lt_zero _)
    | succ rounds ih =>
      intro ts hrounds
      refine (hgoesOn ts).bind_run fun found rest hrun _ _ _ => ?_
      obtain ⟨rfl, rfl⟩ := hpeeks ts found rest hrun
      refine .ite (fun hlook => ?_) fun _ => .pure (List.forall_mem_nil _)
      refine Steps.weaken ((hp rest hlook).bind fun a mid ha _ hle => ?_)
      have hmid : mid.length < rounds := by omega
      refine (ih mid hmid).bind fun as _ has _ _ => ?_
      exact .pure (List.forall_mem_cons.2 ⟨ha, has⟩)
  exact .get_bind (hgo _ ts (Nat.lt_succ_self _))

end Steps

def Advances {α : Type} (all : List Token) (p : Parse α) (good : α → Prop) : Prop :=
  ∀ ts, Steps all 1 p good ts

theorem ne_nil_of_firstKind? {ts : List Token} {kind : TokenKind}
    (h : firstKind? ts = some kind) : ts ≠ [] := by
  rintro rfl
  contradiction

theorem ne_nil_of_startsWith {ts : List Token} {word : String} (h : startsWith word ts = true) :
    ts ≠ [] := by
  rintro rfl
  contradiction

section

variable {α : Type} {s : Setting} {all : List Token}

/-! ## Tokens and names -/

/--
What is missing at the end of the input is missed at the last token.
-/
def Setting.Ends (s : Setting) (all : List Token) : Prop :=
  s.finish = (all.getLast?.map Token.span).getD .none

theorem Setting.Ends.blames (h : s.Ends all) (fault : SyntaxFault) :
    Blames all ⟨fault, s.finish⟩ := by
  unfold Setting.Ends at h
  unfold Blames
  dsimp only
  rw [h]
  cases hlast : all.getLast? with
  | none => exact .inr ⟨List.getLast?_eq_none_iff.1 hlast, rfl⟩
  | some t => exact .inl (among_self (List.mem_of_getLast? hlast))

theorem advances_expect (h : s.Ends all) (kind : TokenKind) (what : String) :
    Advances all (expect s kind what) (· ∈ all) := by
  intro ts
  unfold expect
  refine .of_suffix fun hts => .get_bind ?_
  cases ts with
  | nil => exact .fail (h.blames _)
  | cons t rest =>
    refine .ite (fun _ => .next (List.cons_ne_nil t rest)) fun _ => .fail (.inl ?_)
    exact among_self (hts.subset List.mem_cons_self)

def Marks (all : List Token) (span : Span) : Prop :=
  ∃ t ∈ all, span = t.span

theorem Marks.join {span span' : Span} (h : Marks all span) (h' : Marks all span') :
    (span.join span').Among all := by
  obtain ⟨t, ht, rfl⟩ := h
  obtain ⟨u, hu, rfl⟩ := h'
  exact ⟨t, ht, u, hu, rfl⟩

theorem Marks.among {span : Span} (h : Marks all span) : span.Among all :=
  h.join h

theorem advances_name (h : s.Ends all) (what : String) (instructions : Bool) :
    Advances all (name s what instructions) fun i => Marks all i.span := by
  intro ts
  unfold name
  refine (advances_expect h _ what ts).bind fun t rest ht _ _ => ?_
  split
  . exact .fail (.inl (among_self ht))
  . split
    . exact .fail (.inl (among_self ht))
    . exact .pure ⟨t, ht, rfl⟩

theorem steps_typeSuffix (h : s.Ends all) (ts : List Token) :
    Steps all 0 (typeSuffix s) (fun _ => True) ts := by
  unfold typeSuffix
  apply Steps.peekKind_bind
  split
  . next hcolon =>
    have hne := ne_nil_of_firstKind? (of_decide_eq_true (Bool.and_eq_true_iff.1 hcolon).2)
    refine (Steps.skip hne).weaken.bind fun _ rest _ _ _ => ?_
    exact (advances_name h _ _ rest).weaken.bind fun _ _ _ _ _ => .pure trivial
  . exact .pure trivial

theorem advances_binder (h : s.Ends all) :
    Advances all (binder s) fun x => Marks all x.span := by
  intro ts
  unfold binder
  refine (advances_name h _ _ ts).bind fun i rest hi _ _ => ?_
  exact (steps_typeSuffix h rest).bind fun _ _ _ _ _ => .pure hi

/-! ## Lists -/

theorem steps_atComma (ts : List Token) : Steps all 0 atComma (fun _ => True) ts :=
  .peekKind_bind (.pure trivial)

theorem steps_peekWord (word : String) (ts : List Token) :
    Steps all 0 (peekWord word) (fun _ => True) ts :=
  .get_bind (.pure trivial)

section

variable {p : Parse α} {good : α → Prop} (hp : Advances all p good)

include hp

theorem steps_others (ts : List Token) :
    Steps all 0 (repeatWhile atComma (behindComma p)) (fun as => ∀ a ∈ as, good a) ts := by
  refine .repeatWhile peeks_atComma steps_atComma (fun ts hcomma => ?_) ts
  have hne := ne_nil_of_firstKind? (of_decide_eq_true hcomma)
  unfold behindComma
  exact (Steps.skip hne).bind fun _ rest _ _ _ => (hp rest).weaken

theorem advances_commaSeparated : Advances all (commaSeparated p) fun as => ∀ a ∈ as, good a := by
  intro ts
  unfold commaSeparated
  refine (hp ts).bind fun first rest hfirst _ _ => ?_
  refine (steps_others hp rest).bind fun others _ hothers _ _ => ?_
  exact .pure (List.forall_mem_cons.2 ⟨hfirst, hothers⟩)

theorem steps_items (ts : List Token) :
    Steps all 0 (items p) (fun as => ∀ a ∈ as, good a) ts := by
  unfold items
  apply Steps.peekKind_bind
  split
  . exact .pure (List.forall_mem_nil _)
  . exact (advances_commaSeparated hp ts).weaken

end

/-! ## Expressions -/

abbrev PlacesExpr (all : List Token) (p : Parse Expr) : Prop :=
  Advances all p fun e => e.span.Among all

theorem steps_literal (h : s.Ends all) {kind : LiteralKind} {ts : List Token} (hne : ts ≠ []) :
    Steps all 1 (literal s kind) (fun e => e.span.Among all) ts := by
  unfold literal
  refine (Steps.next hne).bind fun t rest ht _ _ => ?_
  exact (steps_typeSuffix h rest).bind fun _ _ _ _ _ => .pure (among_self ht)

theorem steps_arguments (h : s.Ends all) {expression : Parse Expr}
    (he : PlacesExpr all expression) (ts : List Token) :
    Steps all 0 (arguments s expression) (fun r => Marks all r.2.span) ts := by
  unfold arguments
  refine (steps_items he ts).bind fun es rest _ _ _ => ?_
  refine (advances_expect h _ _ rest).weaken.bind fun close _ hclose _ _ => ?_
  exact .pure ⟨close, hclose, rfl⟩

theorem advances_named (h : s.Ends all) {expression : Parse Expr}
    (he : PlacesExpr all expression) : PlacesExpr all (named s expression) := by
  intro ts
  unfold named
  refine (advances_name h _ _ ts).bind fun i rest hi _ _ => .peekKind_bind ?_
  split
  . next hparen =>
    refine (Steps.skip (ne_nil_of_firstKind? hparen)).weaken.bind fun _ rest _ _ _ => ?_
    refine (steps_arguments h he rest).bind fun r _ hr _ _ => ?_
    dsimp only
    split
    . exact .pure (hi.join hr)
    . exact .pure (hi.join hr)
  . exact .pure hi.among

theorem placesExpr_expression (h : s.Ends all) (depth : Nat) :
    PlacesExpr all (expression s depth) := by
  induction depth with
  | zero =>
    intro ts
    unfold expression
    refine .of_suffix fun hts => .get_bind (.fail ?_)
    cases ts with
    | nil => exact h.blames _
    | cons t rest => exact .inl (among_self (hts.subset List.mem_cons_self))
  | succ depth ih =>
    intro ts
    unfold expression
    refine .peekKind_bind ?_
    split
    . next hkind => exact steps_literal h (ne_nil_of_firstKind? hkind)
    . next hkind => exact steps_literal h (ne_nil_of_firstKind? hkind)
    . next hkind =>
      refine .peekWord_bind (.peekWord_bind (.ite (fun _ => ?_) fun _ => advances_named h ih ts))
      exact steps_literal h (ne_nil_of_firstKind? hkind)
    . next hkind =>
      refine (Steps.next (ne_nil_of_firstKind? hkind)).bind fun t _ ht _ _ => ?_
      exact .fail (.inl (among_self ht))
    . exact .fail (h.blames _)

/-! ## Statements -/

abbrev Takes (all : List Token) (p : Parse α) : Prop :=
  Advances all p fun _ => True

theorem Steps.next_bind {f : Token → Parse α} {P : α → Prop} {ts : List Token} (hne : ts ≠ [])
    (hf : ∀ t ∈ all, ∀ rest, Steps all 0 (f t) P rest) : Steps all 1 (Parser.next >>= f) P ts :=
  (Steps.next hne).bind fun t rest ht _ _ => hf t ht rest

section

variable {block : Parse Block} {expression : Parse Expr} {ts : List Token}

theorem steps_stackAssignment (h : s.Ends all) (hne : ts ≠ []) :
    Steps all 1 (stackAssignment s) (fun _ => True) ts := by
  unfold stackAssignment
  refine .next_bind hne fun start _ rest => ?_
  exact (advances_name h _ _ rest).weaken.bind fun _ _ _ _ _ => .pure trivial

theorem steps_label (h : s.Ends all) (hcolon : secondKind? ts = some .colon) :
    Steps all 1 (label s) (fun _ => True) ts := by
  unfold label
  refine (advances_name h _ _ ts).bind_run fun i rest hrun _ _ _ => ?_
  obtain ⟨t, rfl, _⟩ := eq_cons_of_run_name hrun
  have hrest : firstKind? rest = some .colon := hcolon
  refine (Steps.next (ne_nil_of_firstKind? hrest)).weaken.bind fun _ _ _ _ _ => ?_
  exact .pure trivial

theorem steps_declaration (h : s.Ends all) (he : PlacesExpr all expression) (hne : ts ≠ []) :
    Steps all 1 (declaration s expression) (fun _ => True) ts := by
  unfold declaration
  refine .next_bind hne fun start _ rest => ?_
  refine (advances_commaSeparated (advances_binder h) rest).weaken.bind fun vars rest _ _ _ =>
    .peekKind_bind ?_
  split
  . next hassign =>
    refine (Steps.skip (ne_nil_of_firstKind? hassign)).weaken.bind fun _ rest _ _ _ => ?_
    exact (he rest).weaken.bind fun _ _ _ _ _ => .pure trivial
  . exact .pure trivial

theorem steps_returns (h : s.Ends all) (ts : List Token) :
    Steps all 0 (returns s) (fun _ => True) ts := by
  unfold returns
  apply Steps.peekKind_bind
  split
  . next harrow =>
    refine (Steps.skip (ne_nil_of_firstKind? harrow)).weaken.bind fun _ rest _ _ _ => ?_
    exact ((advances_commaSeparated (advances_binder h) rest).weaken).imp fun _ _ => trivial
  . exact .pure trivial

theorem steps_function (h : s.Ends all) (hb : Takes all block) (hne : ts ≠ []) :
    Steps all 1 (function s block) (fun _ => True) ts := by
  unfold function
  refine .next_bind hne fun start _ rest => ?_
  refine (advances_name h _ _ rest).weaken.bind fun i rest _ _ _ => ?_
  refine (advances_expect h _ _ rest).weaken.bind fun _ rest _ _ _ => ?_
  refine (steps_items (advances_binder h) rest).bind fun _ rest _ _ _ => ?_
  refine (advances_expect h _ _ rest).weaken.bind fun _ rest _ _ _ => ?_
  refine (steps_returns h rest).bind fun _ rest _ _ _ => ?_
  exact (hb rest).weaken.bind fun _ _ _ _ _ => .pure trivial

theorem steps_conditional (hb : Takes all block) (he : PlacesExpr all expression) (hne : ts ≠ []) :
    Steps all 1 (conditional block expression) (fun _ => True) ts := by
  unfold conditional
  refine .next_bind hne fun start _ rest => ?_
  refine (he rest).weaken.bind fun _ rest _ _ _ => ?_
  exact (hb rest).weaken.bind fun _ _ _ _ _ => .pure trivial

theorem steps_caseArm (hb : Takes all block) (he : PlacesExpr all expression) (hne : ts ≠ []) :
    Steps all 1 (caseArm block expression) (fun _ => True) ts := by
  unfold caseArm
  refine .next_bind hne fun start _ rest => ?_
  refine (he rest).weaken.bind fun e rest hplace _ _ => ?_
  split
  . exact (hb rest).weaken.bind fun _ _ _ _ _ => .pure trivial
  . exact .fail (.inl hplace)

theorem steps_defaultArm (hb : Takes all block) (ts : List Token) :
    Steps all 0 (defaultArm block) (fun _ => True) ts := by
  unfold defaultArm
  apply Steps.peekWord_bind
  split
  . next hdefault =>
    refine (Steps.next_bind (ne_nil_of_startsWith hdefault) fun start _ rest => ?_).weaken
    exact (hb rest).weaken.bind fun _ _ _ _ _ => .pure trivial
  . exact .pure trivial

theorem steps_switch (hb : Takes all block) (he : PlacesExpr all expression) (hne : ts ≠ []) :
    Steps all 1 (switch block expression) (fun _ => True) ts := by
  have harms := Steps.repeatWhile (peeks_peekWord "case") (steps_peekWord "case") fun _ hcase =>
    steps_caseArm hb he (ne_nil_of_startsWith hcase)
  unfold switch
  refine .next_bind hne fun start hstart rest => ?_
  refine (he rest).weaken.bind fun _ rest _ _ _ => ?_
  refine (harms rest).bind fun _ rest _ _ _ => ?_
  refine (steps_defaultArm hb rest).bind fun _ rest _ _ _ => ?_
  split
  . exact .fail (.inl (among_self hstart))
  . exact .pure trivial

theorem steps_loop (hb : Takes all block) (he : PlacesExpr all expression) (hne : ts ≠ []) :
    Steps all 1 (loop block expression) (fun _ => True) ts := by
  unfold loop
  refine .next_bind hne fun start _ rest => ?_
  refine (hb rest).weaken.bind fun _ rest _ _ _ => ?_
  refine (he rest).weaken.bind fun _ rest _ _ _ => ?_
  refine (hb rest).weaken.bind fun _ rest _ _ _ => ?_
  exact (hb rest).weaken.bind fun _ _ _ _ _ => .pure trivial

theorem steps_strayCase (hne : ts ≠ []) : Steps all 1 strayCase (fun _ => True) ts := by
  unfold strayCase
  refine .next_bind hne fun t ht rest => ?_
  exact .fail (.inl (among_self ht))

theorem steps_instruction (hne : ts ≠ []) : Steps all 1 instruction (fun _ => True) ts := by
  unfold instruction
  exact .next_bind hne fun t _ rest => .pure trivial

theorem takes_simple (h : s.Ends all) (he : PlacesExpr all expression) :
    Takes all (simple s expression) := by
  intro ts
  unfold simple
  refine (he ts).bind fun e rest _ _ _ => .peekKind_bind ?_
  split
  . split
    . refine (steps_others (advances_name h _ _) rest).bind fun _ rest _ _ _ => ?_
      refine (advances_expect h _ _ rest).weaken.bind fun _ rest _ _ _ => ?_
      exact (he rest).weaken.bind fun _ _ _ _ _ => .pure trivial
    . exact .pure trivial
  . exact .pure trivial

theorem takes_statement (h : s.Ends all) (hb : Takes all block) (he : PlacesExpr all expression) :
    Takes all (statement s block expression) := by
  intro ts
  unfold statement
  refine .get_bind ?_
  have hopens := Form.opens_ofTokens s.dialect ts
  cases hform : Form.ofTokens s.dialect ts with rw [hform] at hopens
  | block => exact (hb ts).bind fun _ _ _ _ _ => .pure trivial
  | stackAssignment => exact steps_stackAssignment h (ne_nil_of_firstKind? hopens.1)
  | declaration => exact steps_declaration h he (ne_nil_of_startsWith hopens)
  | function => exact steps_function h hb (ne_nil_of_startsWith hopens)
  | conditional => exact steps_conditional hb he (ne_nil_of_startsWith hopens)
  | switch => exact steps_switch hb he (ne_nil_of_startsWith hopens)
  | loop => exact steps_loop hb he (ne_nil_of_startsWith hopens)
  | strayCase => exact steps_strayCase (hopens.elim ne_nil_of_startsWith ne_nil_of_startsWith)
  | label => exact steps_label h hopens.2.2
  | instruction =>
    obtain ⟨_, t, rest, rfl, _⟩ := eq_cons_of_isBareInstruction hopens
    exact steps_instruction (List.cons_ne_nil t rest)
  | simple => exact takes_simple h he ts

end

/-! ## Blocks -/

theorem steps_inBlock {start : Span} (hstart : start.Among all) (ts : List Token) :
    Steps all 0 (inBlock start) (fun _ => True) ts := by
  unfold inBlock
  refine .peekKind_bind ?_
  split
  . exact .pure trivial
  . exact .pure trivial
  . exact .fail (.inl hstart)

theorem takes_block (h : s.Ends all) (depth : Nat) : Takes all (Parser.block s depth) := by
  induction depth with
  | zero =>
    intro ts
    unfold Parser.block
    exact (advances_expect h _ _ ts).bind fun start _ hstart _ _ => .fail (.inl (among_self hstart))
  | succ depth ih =>
    intro ts
    have hstatement := takes_statement h ih (placesExpr_expression h depth)
    unfold Parser.block
    refine (advances_expect h _ _ ts).bind fun start rest hstart _ _ => ?_
    have hbody := Steps.repeatWhile (peeks_inBlock start.span) (steps_inBlock (among_self hstart))
      fun ts _ => hstatement ts
    refine (hbody rest).bind_run fun ss rest hrun _ _ _ => ?_
    obtain ⟨close, us, rfl, _⟩ := eq_cons_of_run_statements hrun
    exact (Steps.next_bind (List.cons_ne_nil close us) fun _ _ _ => .pure trivial).weaken

theorem takes_program (h : s.Ends all) : Takes all (program s) := by
  intro ts
  unfold program
  refine (takes_block h _ ts).bind fun root rest _ hrest _ => .get_bind ?_
  split
  . exact .pure trivial
  . next t ht => exact .fail (.inl (among_self (hrest.subset (List.mem_of_mem_head? ht))))

end

end Parser
end Splice
