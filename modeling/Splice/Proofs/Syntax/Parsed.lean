import Splice.Proofs.Syntax.Legible
import Splice.Proofs.Syntax.RoundTrip

/-!
This module contains the proof that what the parser returns is a legible tree within the bound on
nesting.
-/

namespace Splice

def Expr.Within (d : Dialect) (n : Nat) (e : Expr) : Prop :=
  e.Legible d ∧ e.nesting ≤ n

def Stmt.Within (d : Dialect) (n : Nat) (x : Stmt) : Prop :=
  x.Legible d ∧ x.nesting ≤ n

def Block.Within (d : Dialect) (n : Nat) (b : Block) : Prop :=
  b.Legible d ∧ b.nesting ≤ n

namespace Parser

def AllLexed (ts : List Token) : Prop :=
  ∀ t ∈ ts, t.word.Lexed

def EnsuresOn {α : Type} (ts : List Token) (p : Parse α) (property : α → Prop) : Prop :=
  ∀ a rest, AllLexed ts → p.run ts = .ok (a, rest) → property a ∧ AllLexed rest

def Ensures {α : Type} (p : Parse α) (property : α → Prop) : Prop :=
  ∀ ts, EnsuresOn ts p property

namespace EnsuresOn

variable {α β : Type} {p : Parse α} {P : α → Prop} {Q : β → Prop} {t : Token} {ts : List Token}

theorem bind {f : α → Parse β} (hp : EnsuresOn ts p P) (hf : ∀ a, P a → Ensures (f a) Q) :
    EnsuresOn ts (p >>= f) Q := by
  intro b rest hts h
  obtain ⟨a, mid, ha, hb⟩ := run_bind_eq_ok.1 h
  obtain ⟨hP, hmid⟩ := hp a mid hts ha
  exact hf a hP mid b rest hmid hb

theorem ite {c : Prop} [Decidable c] {q : Parse α} (hp : c → EnsuresOn ts p P)
    (hq : ¬c → EnsuresOn ts q P) : EnsuresOn ts (if c then p else q) P := by
  split
  . next hc => exact hp hc
  . next hc => exact hq hc

theorem get_bind {f : List Token → Parse β} (h : EnsuresOn ts (f ts) Q) :
    EnsuresOn ts (get >>= f) Q := h

theorem next_bind {f : Token → Parse β} (h : t.word.Lexed → Ensures (f t) Q) :
    EnsuresOn (t :: ts) (next >>= f) Q := by
  intro b rest hts hrun
  obtain ⟨_, _, hnext, hrun⟩ := run_bind_eq_ok.1 hrun
  obtain ⟨rfl, rfl⟩ := List.cons.inj (run_next_eq_ok.1 hnext)
  rw [AllLexed, List.forall_mem_cons] at hts
  exact h hts.1 ts b rest hts.2 hrun

theorem peekKind_bind {f : Option TokenKind → Parse β} (h : EnsuresOn ts (f (firstKind? ts)) Q) :
    EnsuresOn ts (peekKind >>= f) Q := h

theorem peekWord_bind {word : String} {f : Bool → Parse β}
    (h : EnsuresOn ts (f (startsWith word ts)) Q) : EnsuresOn ts (peekWord word >>= f) Q := h

end EnsuresOn

namespace Ensures

variable {α β : Type} {p : Parse α} {f : α → Parse β} {P P' : α → Prop} {Q : β → Prop}

theorem imp (hp : Ensures p P) (h : ∀ a, P a → P' a) : Ensures p P' := by
  intro ts a rest hts hrun
  obtain ⟨ha, hrest⟩ := hp ts a rest hts hrun
  exact ⟨h a ha, hrest⟩

theorem bind (hp : Ensures p P) (hf : ∀ a, P a → Ensures (f a) Q) : Ensures (p >>= f) Q :=
  fun ts => (hp ts).bind hf

theorem pure {a : α} (h : P a) : Ensures (Pure.pure a) P := by
  intro ts b rest hts hrun
  rw [run_pure_eq_ok] at hrun
  cases hrun
  exact ⟨h, hts⟩

theorem fail (fault : SyntaxFault) (span : Span) : Ensures (fail fault span) P := by
  intro ts a rest _ h
  exact (run_fail_ne_ok h).elim

theorem ite {c : Prop} [Decidable c] {p q : Parse α} (hp : c → Ensures p P)
    (hq : ¬c → Ensures q P) : Ensures (if c then p else q) P :=
  fun ts => .ite (fun hc => hp hc ts) fun hc => hq hc ts

theorem skip : Ensures skip fun _ => True := by
  intro ts a rest hts h
  rw [run_skip_eq_ok] at h
  cases h
  exact ⟨trivial, fun t ht => hts t (List.mem_of_mem_tail ht)⟩

theorem next : Ensures next fun t => t.word.Lexed := by
  intro ts t rest hts h
  rw [run_next_eq_ok.1 h, AllLexed, List.forall_mem_cons] at hts
  exact hts

theorem peekKind : Ensures peekKind fun _ => True := by
  intro ts a rest hts h
  rw [run_peekKind_eq_ok] at h
  cases h
  exact ⟨trivial, hts⟩

theorem peekWord {word : String} : Ensures (peekWord word) fun _ => True := by
  intro ts a rest hts h
  rw [run_peekWord_eq_ok] at h
  cases h
  exact ⟨trivial, hts⟩

theorem repeatWhile {goesOn : Parse Bool} {look : List Token → Bool} (hgoesOn : Peeks goesOn look)
    (hp : Ensures p P) : Ensures (repeatWhile goesOn p) fun as => ∀ a ∈ as, P a := by
  have hlook : Ensures goesOn fun _ => True := by
    intro ts found rest hts h
    obtain ⟨rfl, _⟩ := hgoesOn ts found rest h
    exact ⟨trivial, hts⟩
  have hgo : ∀ rounds, Ensures (Parser.repeatWhile.go goesOn p rounds) fun as => ∀ a ∈ as, P a := by
    intro rounds
    induction rounds with
    | zero => exact fun ts a rest _ h => (run_stop_ne_ok h).elim
    | succ rounds ih =>
      refine hlook.bind fun _ _ => .ite (fun _ => ?_) fun _ => .pure (List.forall_mem_nil _)
      refine hp.bind fun a ha => ih.bind fun as has => ?_
      exact .pure (List.forall_mem_cons.2 ⟨ha, has⟩)
  exact fun ts => hgo _ ts

end Ensures

variable {s : Setting}

/-! ## Names and lists -/

theorem ensures_expect (kind : TokenKind) (what : String) :
    Ensures (expect s kind what) fun t => t.kind = kind ∧ t.word.Lexed := by
  intro ts t rest hts h
  obtain ⟨rfl, hk⟩ := run_expect_eq_ok.1 h
  rw [AllLexed, List.forall_mem_cons] at hts
  exact ⟨⟨hk, hts.1⟩, hts.2⟩

theorem ensures_name (what : String) (instructions : Bool) :
    Ensures (name s what instructions) fun i =>
      Usable i.name ∧ (instructions = false → Instruction.isName i.name = false) := by
  unfold name
  refine (ensures_expect .identifier what).bind ?_
  rintro ⟨kind, text, span⟩ ⟨rfl, hlexed⟩
  refine .ite (fun _ => .fail _ _) fun hkeyword => .ite (fun _ => .fail _ _) fun hinstruction => ?_
  simp only [List.contains_iff_mem, Bool.and_eq_true, not_and, Bool.not_eq_true,
    Bool.not_eq_true'] at hkeyword hinstruction
  exact .pure ⟨⟨hlexed, hkeyword⟩, hinstruction⟩

theorem ensures_bindable (what : String) :
    Ensures (name s what false) fun i => Bindable i.name :=
  (ensures_name what false).imp fun _ hi => ⟨hi.1, hi.2 rfl⟩

section

variable {α : Type} {p : Parse α} {P : α → Prop} (hp : Ensures p P)

include hp

theorem ensures_others :
    Ensures (repeatWhile atComma (behindComma p)) fun as => ∀ a ∈ as, P a :=
  .repeatWhile peeks_atComma (Ensures.skip.bind fun _ _ => hp)

theorem ensures_commaSeparated :
    Ensures (commaSeparated p) fun as => as ≠ [] ∧ ∀ a ∈ as, P a := by
  unfold commaSeparated
  refine hp.bind fun a ha => (ensures_others hp).bind fun as has => ?_
  exact .pure ⟨List.cons_ne_nil a as, List.forall_mem_cons.2 ⟨ha, has⟩⟩

theorem ensures_items : Ensures (items p) fun as => ∀ a ∈ as, P a := by
  unfold items
  refine Ensures.peekKind.bind fun _ _ => .ite (fun _ => .pure (List.forall_mem_nil _)) fun _ => ?_
  exact (ensures_commaSeparated hp).imp fun _ => And.right

end

/-! ## Variables and expressions -/

theorem ensures_typeSuffix : Ensures (typeSuffix s) s.dialect.TypeLegible := by
  unfold typeSuffix
  refine Ensures.peekKind.bind fun _ _ => .ite (fun hc => ?_) fun _ => .pure nofun
  rw [Bool.and_eq_true] at hc
  refine Ensures.skip.bind fun _ _ => (ensures_bindable _).bind fun i hi => .pure ?_
  intro t ht
  cases ht
  exact ⟨hc.1, hi⟩

theorem ensures_binder : Ensures (binder s) (Binder.Legible s.dialect) := by
  unfold binder
  refine (ensures_bindable _).bind fun i hi => ensures_typeSuffix.bind fun type htype => ?_
  exact .pure ⟨hi, htype⟩

theorem ensures_literal {kind : LiteralKind} {t : Token} {ts : List Token}
    (hkind : t.kind = kind.tokenKind)
    (hboolean : kind = .boolean → t.text = "true" ∨ t.text = "false") {n : Nat} :
    EnsuresOn (t :: ts) (literal s kind) (Expr.Within s.dialect (n + 1)) := by
  unfold literal
  refine .next_bind fun ht => ensures_typeSuffix.bind fun type htype => .pure ?_
  refine ⟨⟨?_, hboolean, htype⟩, Nat.le_add_left 1 n⟩
  rw [← hkind]
  exact ht

section

variable {n : Nat} {expression : Parse Expr}
  (he : Ensures expression (Expr.Within s.dialect n))

include he

theorem ensures_arguments :
    Ensures (arguments s expression) fun r =>
      Expr.AllLegible s.dialect r.1 ∧ Expr.maxNesting r.1 ≤ n := by
  unfold arguments
  refine (ensures_items he).bind fun es hes => (ensures_expect _ _).bind fun close _ => .pure ?_
  rw [Expr.allLegible_iff, Expr.maxNesting_le]
  exact ⟨fun e h => (hes e h).1, fun e h => (hes e h).2⟩

theorem ensures_named :
    Ensures (named s expression) (Expr.Within s.dialect (n + 1)) := by
  unfold named
  refine (ensures_name _ _).bind fun i hi => Ensures.peekKind.bind fun _ _ => ?_
  refine .ite (fun _ => ?_) fun _ => .pure ⟨hi.1, Nat.le_add_left 1 n⟩
  refine Ensures.skip.bind fun _ _ => (ensures_arguments he).bind fun r hr => ?_
  refine .ite (fun hname => ?_) fun hname => ?_
  . exact .pure ⟨⟨hname, hr.1⟩, Nat.succ_le_succ hr.2⟩
  . rw [Bool.not_eq_true] at hname
    exact .pure ⟨⟨⟨hi.1, hname⟩, hr.1⟩, Nat.succ_le_succ hr.2⟩

end

theorem ensures_expression (depth : Nat) :
    Ensures (expression s depth) (Expr.Within s.dialect depth) := by
  induction depth with
  | zero => exact fun ts => .get_bind (Ensures.fail _ _ ts)
  | succ depth ih =>
    intro ts
    unfold expression
    refine .peekKind_bind ?_
    split
    . next hfirst =>
      obtain ⟨t, us, rfl, hk⟩ := eq_cons_of_firstKind? hfirst
      exact ensures_literal hk LiteralKind.noConfusion
    . next hfirst =>
      obtain ⟨t, us, rfl, hk⟩ := eq_cons_of_firstKind? hfirst
      exact ensures_literal hk LiteralKind.noConfusion
    . next hfirst =>
      obtain ⟨t, us, rfl, hk⟩ := eq_cons_of_firstKind? hfirst
      refine .peekWord_bind (.peekWord_bind (.ite (fun hwords => ?_) fun _ => ensures_named ih _))
      refine ensures_literal hk fun _ => ?_
      simpa [startsWith, hk] using hwords
    . exact (Ensures.next.bind fun _ _ => .fail _ _) ts
    . exact Ensures.fail _ _ ts

def NamesAlone (expression : Parse Expr) : Prop :=
  ∀ ts i rest, expression.run ts = .ok (.identifier i, rest) →
    ∃ t, ts = t :: rest ∧ t.word = .ofName i.name ∧ firstKind? rest ≠ some .leftParen

theorem namesAlone_named {expression : Parse Expr} : NamesAlone (named s expression) := by
  intro ts i rest h
  unfold named at h
  simp only [run_bind_eq_ok, run_peekKind_eq_ok, Prod.mk.injEq] at h
  obtain ⟨j, mid, hj, _, _, ⟨rfl, rfl⟩, h⟩ := h
  split at h
  . simp only [run_bind_eq_ok] at h
    obtain ⟨_, _, _, _, _, _, h⟩ := h
    split at h
    all_goals
      rw [run_pure_eq_ok] at h
      cases h
  . next hnext =>
    simp only [run_pure_eq_ok, Prod.mk.injEq, Expr.identifier.injEq] at h
    obtain ⟨rfl, rfl⟩ := h
    obtain ⟨t, hts, hword, _⟩ := eq_cons_of_run_name hj
    exact ⟨t, hts, hword, hnext⟩

theorem literal_ne_identifier {kind : LiteralKind} {ts rest : List Token} {i : Identifier} :
    (literal s kind).run ts ≠ .ok (.identifier i, rest) := by
  unfold literal
  intro h
  simp only [run_bind_eq_ok, run_pure_eq_ok, Prod.mk.injEq, reduceCtorEq, false_and, and_false,
    exists_false] at h

theorem namesAlone_expression (depth : Nat) : NamesAlone (expression s depth) := by
  intro ts i rest h
  cases depth with
  | zero =>
    unfold expression at h
    simp only [run_bind_eq_ok, run_fail_ne_ok, and_false, exists_false] at h
  | succ depth =>
    unfold expression at h
    simp only [run_bind_eq_ok, run_peekKind_eq_ok, Prod.mk.injEq] at h
    obtain ⟨_, _, ⟨rfl, rfl⟩, h⟩ := h
    split at h
    . exact absurd h literal_ne_identifier
    . exact absurd h literal_ne_identifier
    . simp only [run_bind_eq_ok, run_peekWord_eq_ok, Prod.mk.injEq] at h
      obtain ⟨_, _, ⟨rfl, rfl⟩, _, _, ⟨rfl, rfl⟩, h⟩ := h
      split at h
      . exact absurd h literal_ne_identifier
      . exact namesAlone_named _ _ _ h
    . simp only [run_bind_eq_ok, run_fail_ne_ok, and_false, exists_false] at h
    . exact absurd h run_fail_ne_ok

/-! ## Statements -/

theorem ensures_returns : Ensures (returns s) fun xs => ∀ x ∈ xs, x.Legible s.dialect := by
  unfold returns
  refine Ensures.peekKind.bind fun _ _ => .ite (fun _ => ?_) fun _ => .pure (List.forall_mem_nil _)
  refine Ensures.skip.bind fun _ _ => ?_
  exact (ensures_commaSeparated ensures_binder).imp fun _ => And.right

section

variable {n : Nat} {block : Parse Block} {expression : Parse Expr}

theorem ensures_stackAssignment (hforms : s.dialect.stackForms = true) :
    Ensures (stackAssignment s) (Stmt.Within s.dialect n) := by
  unfold stackAssignment
  refine Ensures.next.bind fun _ _ => (ensures_bindable _).bind fun i hi => .pure ?_
  exact ⟨⟨hforms, hi⟩, Nat.zero_le n⟩

theorem ensures_label (hforms : s.dialect.stackForms = true) :
    Ensures (label s) (Stmt.Within s.dialect n) := by
  unfold label
  refine (ensures_bindable _).bind fun i hi => Ensures.next.bind fun _ _ => .pure ?_
  exact ⟨⟨hforms, hi⟩, Nat.zero_le n⟩

theorem ensures_instruction {ts : List Token} (hbare : isBareInstruction s.dialect ts = true) :
    EnsuresOn ts instruction (Stmt.Within s.dialect n) := by
  obtain ⟨hforms, t, us, rfl, _, hname⟩ := eq_cons_of_isBareInstruction hbare
  exact .next_bind fun _ => .pure ⟨⟨hforms, hname⟩, Nat.zero_le n⟩

theorem ensures_declaration (he : Ensures expression (Expr.Within s.dialect n)) :
    Ensures (declaration s expression) (Stmt.Within s.dialect n) := by
  unfold declaration
  refine Ensures.next.bind fun _ _ => (ensures_commaSeparated ensures_binder).bind fun vars hvars => ?_
  refine Ensures.peekKind.bind fun _ _ => .ite (fun _ => ?_) fun _ => ?_
  . refine Ensures.skip.bind fun _ _ => he.bind fun value hvalue => .pure ?_
    refine ⟨⟨hvars.1, hvars.2, fun e heq => ?_⟩, hvalue.2⟩
    cases heq
    exact hvalue.1
  . exact .pure ⟨⟨hvars.1, hvars.2, nofun⟩, Nat.zero_le n⟩

theorem ensures_function (hb : Ensures block (Block.Within s.dialect n)) :
    Ensures (function s block) (Stmt.Within s.dialect n) := by
  unfold function
  refine Ensures.next.bind fun _ _ => (ensures_bindable _).bind fun i hi => ?_
  refine (ensures_expect _ _).bind fun _ _ => ?_
  refine (ensures_items ensures_binder).bind fun parameters hparameters => ?_
  refine (ensures_expect _ _).bind fun _ _ => ensures_returns.bind fun xs hxs => ?_
  exact hb.bind fun body hbody => .pure ⟨⟨⟨hi, hparameters, hxs⟩, hbody.1⟩, hbody.2⟩

theorem ensures_conditional (hb : Ensures block (Block.Within s.dialect n))
    (he : Ensures expression (Expr.Within s.dialect n)) :
    Ensures (conditional block expression) (Stmt.Within s.dialect n) := by
  unfold conditional
  refine Ensures.next.bind fun _ _ => he.bind fun condition hcondition => ?_
  refine hb.bind fun body hbody => .pure ?_
  exact ⟨⟨hcondition.1, hbody.1⟩, Nat.max_le.2 ⟨hcondition.2, hbody.2⟩⟩

theorem ensures_loop (hb : Ensures block (Block.Within s.dialect n))
    (he : Ensures expression (Expr.Within s.dialect n)) :
    Ensures (loop block expression) (Stmt.Within s.dialect n) := by
  unfold loop
  refine Ensures.next.bind fun _ _ => hb.bind fun pre hpre => he.bind fun condition hcondition => ?_
  refine hb.bind fun post hpost => hb.bind fun body hbody => .pure ?_
  have hhead := Nat.max_le.2 ⟨hpre.2, hcondition.2⟩
  have hblocks := Nat.max_le.2 ⟨hpost.2, hbody.2⟩
  exact ⟨⟨hpre.1, hcondition.1, hpost.1, hbody.1⟩, Nat.max_le.2 ⟨hhead, hblocks⟩⟩

theorem ensures_caseArm (hb : Ensures block (Block.Within s.dialect n))
    (he : Ensures expression (Expr.Within s.dialect n)) :
    Ensures (caseArm block expression) fun c =>
      (∀ l ∈ c.value, l.Legible s.dialect) ∧ c.body.Within s.dialect n ∧ c.value ≠ none := by
  unfold caseArm
  refine Ensures.next.bind fun _ _ => he.bind fun e hvalue => ?_
  split
  . next value =>
    refine hb.bind fun body hbody => .pure ⟨?_, hbody, nofun⟩
    intro l hl
    cases hl
    exact hvalue.1
  . exact .fail _ _

theorem ensures_caseArms (hb : Ensures block (Block.Within s.dialect n))
    (he : Ensures expression (Expr.Within s.dialect n)) :
    Ensures (repeatWhile (peekWord "case") (caseArm block expression)) fun cs =>
      Case.AllLegible s.dialect cs ∧ Case.maxNesting cs ≤ n ∧ none ∉ cs.map Case.value := by
  refine (Ensures.repeatWhile (peeks_peekWord _) (ensures_caseArm hb he)).imp fun cs hcs => ?_
  refine ⟨(Case.allLegible_iff _ cs).2 ?_, (Case.maxNesting_le cs n).2 ?_, ?_⟩
  . exact fun c hc => ⟨(hcs c hc).1, (hcs c hc).2.1.1⟩
  . exact fun c hc => (hcs c hc).2.1.2
  . intro hnone
    obtain ⟨c, hc, hvalue⟩ := List.mem_map.1 hnone
    exact (hcs c hc).2.2 hvalue

theorem ensures_defaultArm (hb : Ensures block (Block.Within s.dialect n)) :
    Ensures (defaultArm block) fun cs =>
      Case.AllLegible s.dialect cs ∧ Case.maxNesting cs ≤ n ∧ cs.length ≤ 1 := by
  unfold defaultArm
  refine Ensures.peekWord.bind fun _ _ => .ite (fun _ => ?_) fun _ =>
    .pure ⟨trivial, Nat.zero_le n, Nat.zero_le 1⟩
  refine Ensures.next.bind fun _ _ => hb.bind fun body hbody => .pure ?_
  exact ⟨⟨nofun, hbody.1, trivial⟩, Nat.max_le.2 ⟨hbody.2, Nat.zero_le n⟩, Nat.le_refl 1⟩

theorem ordered_append {arms default : List Case} (hne : arms ++ default ≠ [])
    (harms : none ∉ arms.map Case.value) (hdefault : default.length ≤ 1) :
    Case.Ordered ((arms ++ default).map Case.value) := by
  refine ⟨fun h => hne (List.map_eq_nil_iff.1 h), fun hmem => harms ?_⟩
  match default with
  | [] =>
    rw [List.append_nil] at hmem
    exact (List.dropLast_sublist _).subset hmem
  | [c] =>
    rwa [List.map_append, List.map_singleton, List.dropLast_concat] at hmem
  | _ :: _ :: _ => simp at hdefault

theorem ensures_switch (hb : Ensures block (Block.Within s.dialect n))
    (he : Ensures expression (Expr.Within s.dialect n)) :
    Ensures (switch block expression) (Stmt.Within s.dialect n) := by
  unfold switch
  refine Ensures.next.bind fun _ _ => he.bind fun subject hsubject => ?_
  refine (ensures_caseArms hb he).bind fun arms harms => ?_
  refine (ensures_defaultArm hb).bind fun default hdefault => ?_
  split
  . exact .fail _ _
  . next hlast =>
    have hne : arms ++ default ≠ [] := by
      intro h
      rw [h] at hlast
      cases hlast
    have hnesting : Case.maxNesting (arms ++ default) ≤ n := by
      rw [Case.maxNesting_le, List.forall_mem_append, ← Case.maxNesting_le, ← Case.maxNesting_le]
      exact ⟨harms.2.1, hdefault.2.1⟩
    refine .pure ⟨⟨hsubject.1, (Case.allLegible_append _ _ _).2 ⟨harms.1, hdefault.1⟩, ?_⟩, ?_⟩
    . exact ordered_append hne harms.2.2 hdefault.2.2
    . exact Nat.max_le.2 ⟨hsubject.2, hnesting⟩

theorem ensures_simple (he : Ensures expression (Expr.Within s.dialect n))
    (hname : NamesAlone expression) {ts : List Token}
    (hbare : isBareInstruction s.dialect ts = false) :
    EnsuresOn ts (simple s expression) (Stmt.Within s.dialect n) := by
  intro x rest hts h
  unfold simple at h
  simp only [run_bind_eq_ok, run_peekKind_eq_ok, Prod.mk.injEq] at h
  obtain ⟨e, mid, hfirst, _, _, ⟨rfl, rfl⟩, h⟩ := h
  obtain ⟨hlegible, hmid⟩ := he _ e mid hts hfirst
  have hleads : e.Leads s.dialect := by
    cases e with
    | identifier i =>
      intro hforms
      obtain ⟨t, rfl, hword, hnext⟩ := hname _ i mid hfirst
      obtain ⟨hkind, htext⟩ := Prod.mk.inj hword
      simpa [isBareInstruction, secondKind?, hforms, hkind, htext, hnext] using hbare
    | _ => trivial
  have hexpression : Ensures (pure (.expression e) : Parse Stmt) (Stmt.Within s.dialect n) :=
    .pure ⟨⟨hlegible.1, hleads⟩, hlegible.2⟩
  split at h
  . next first =>
    have hassignment : Ensures (do
        let others ← repeatWhile atComma (behindComma (name s "a variable name" false))
        let _ ← expect s .assign "`:=`"
        let value ← expression
        return .assignment (first.span.join value.span) (first :: others) value : Parse Stmt)
        (Stmt.Within s.dialect n) := by
      refine (ensures_others (ensures_bindable _)).bind fun others hothers => ?_
      refine (ensures_expect _ _).bind fun _ _ => he.bind fun value hvalue => .pure ?_
      exact ⟨⟨⟨hlegible.1, hleads, hothers⟩, hvalue.1⟩, hvalue.2⟩
    split at h
    . exact hassignment _ x rest hmid h
    . exact hexpression _ x rest hmid h
  . exact hexpression _ x rest hmid h

theorem ensures_statement (hb : Ensures block (Block.Within s.dialect n))
    (he : Ensures expression (Expr.Within s.dialect n)) (hname : NamesAlone expression) :
    Ensures (statement s block expression) (Stmt.Within s.dialect n) := by
  intro ts
  unfold statement
  refine .get_bind ?_
  have hopens := Form.opens_ofTokens s.dialect ts
  cases hform : Form.ofTokens s.dialect ts with rw [hform] at hopens
  | block => exact (hb.bind fun b hblock => .pure ⟨hblock.1, hblock.2⟩) ts
  | stackAssignment => exact ensures_stackAssignment hopens.2 ts
  | declaration => exact ensures_declaration he ts
  | function => exact ensures_function hb ts
  | conditional => exact ensures_conditional hb he ts
  | switch => exact ensures_switch hb he ts
  | loop => exact ensures_loop hb he ts
  | strayCase => exact (Ensures.next.bind fun _ _ => .fail _ _) ts
  | label => exact ensures_label hopens.1 ts
  | instruction => exact ensures_instruction hopens
  | simple => exact ensures_simple he hname hopens

end

theorem ensures_block (depth : Nat) :
    Ensures (Parser.block s depth) (Block.Within s.dialect depth) := by
  induction depth with
  | zero =>
    unfold Parser.block
    exact (ensures_expect _ _).bind fun _ _ => .fail _ _
  | succ depth ih =>
    have hstatement := ensures_statement ih (ensures_expression depth) (namesAlone_expression depth)
    unfold Parser.block
    refine (ensures_expect _ _).bind fun start _ => ?_
    refine (Ensures.repeatWhile (peeks_inBlock _) hstatement).bind fun ss hss => ?_
    refine Ensures.next.bind fun close _ => .pure ⟨?_, Nat.succ_le_succ ?_⟩
    . exact (Stmt.allLegible_iff _ ss).2 fun x hx => (hss x hx).1
    . exact (Stmt.maxNesting_le ss depth).2 fun x hx => (hss x hx).2

end Parser

theorem legible_of_parse {d : Dialect} {source : String} {b : Block}
    (h : parse d source = .ok b) : b.Within d Parser.maxNesting := by
  rw [parse_eq_ok, parseTokens_eq_ok] at h
  have hlexed : Parser.AllLexed (lex source).1 :=
    fun t ht => lexed_of_lex h.2 _ (List.mem_map_of_mem ht)
  exact (Parser.ensures_block _ _ b [] hlexed h.1).1

end Splice
