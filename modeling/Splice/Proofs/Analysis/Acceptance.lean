import Splice.Analysis
import Splice.Proofs.Analysis.Scopes

/-!
This module contains the proof that the analysis accepts exactly the programs that keep to the
rules.
-/

namespace Splice

namespace Env

/-! ## Uses -/

theorem clean_value {env : Env} {c : Context} (h : env.Agrees c) (i : Identifier) :
    (env.value i).2.Clean ↔ c.Readable i.name := by
  rw [← h.readable]
  unfold value meaning?
  cases env.lookup i.name with
  | found b =>
    obtain ⟨meaning, span⟩ := b
    cases meaning <;> simp
  | hidden b => simp [hidden]
  | missing => simp [unknown]

theorem value_of_clean {env : Env} {i : Identifier} (h : (env.value i).2.Clean) :
    (env.value i).1 = some 1 := by
  unfold value at *
  split <;> simp_all [hidden, unknown]

theorem clean_target {env : Env} {c : Context} (h : env.Agrees c) (i : Identifier) :
    (env.target i).Clean ↔ c.Assignable i.name := by
  have hassignable : c.Assignable i.name ↔ c.Readable i.name := by
    unfold Context.Assignable Context.Readable
    rw [h.assignable]
  rw [hassignable, ← h.readable]
  unfold target meaning?
  cases env.lookup i.name with
  | found b =>
    obtain ⟨meaning, span⟩ := b
    cases meaning <;> simp
  | hidden b => simp [hidden]
  | missing => simp [unknown]

theorem clean_targets {env : Env} {c : Context} (h : env.Agrees c) :
    (is : List Identifier) → ((env.targets is).Clean ↔ ∀ i ∈ is, c.Assignable i.name)
  | [] => by simp [targets]
  | i :: is => by
    unfold targets
    rw [Report.clean_append, clean_target h, clean_targets h is, List.forall_mem_cons]

theorem clean_callee {env : Env} {c : Context} (h : env.Agrees c) (span : Span) (i : Identifier)
    (arguments : Nat) : (env.callee span i arguments).2.Clean ↔
      ∃ n, (env.callee span i arguments).1 = some n ∧ ⟨i.name, arguments, n⟩ ∈ c.functions := by
  simp only [← h.callable]
  unfold callee meaning? argumentCount
  cases env.lookup i.name with
  | found b =>
    obtain ⟨meaning, span⟩ := b
    cases meaning <;> simp
  | hidden b => simp
  | missing => simp [unknown]

theorem callee_of_mem {env : Env} {c : Context} (h : env.Agrees c) {span : Span} {i : Identifier}
    {arguments n : Nat} (hmem : ⟨i.name, arguments, n⟩ ∈ c.functions) :
    (env.callee span i arguments).1 = some n := by
  have hmeaning := (h.callable _).2 hmem
  unfold meaning? at hmeaning
  unfold callee
  cases hl : env.lookup i.name with
  | found b =>
    obtain ⟨meaning, span⟩ := b
    simp_all
  | hidden b => simp_all
  | missing => simp_all

theorem clean_instruction (span : Span) (name : String) (arguments : Nat) :
    (instruction span name arguments).2.Clean ↔
      ∃ i, Instruction.find? name = some i ∧ i.arguments = arguments := by
  unfold instruction argumentCount
  cases Instruction.find? name <;> simp

theorem clean_valueCount {span : Span} {expected : Nat} {found? : Option Nat} :
    (valueCount span expected found?).Clean ↔ ∀ found, found? = some found → found = expected := by
  unfold valueCount
  cases found? <;> simp

mutual

theorem clean_expr {env : Env} {c : Context} (h : env.Agrees c) :
    (e : Expr) → ((env.expr e).2.Clean ↔ ∃ n, e.Yields c n)
  | .literal l => by simp [expr, Expr.Yields, Literal.Valid, Report.Clean]
  | .identifier i => by simp [expr, Expr.Yields, clean_value h]
  | .call span i arguments => by
    unfold expr
    simp only [Report.clean_append, clean_arguments h arguments, clean_callee h, Expr.Yields]
    constructor
    . rintro ⟨ha, n, _, hn⟩
      exact ⟨n, hn, ha⟩
    . rintro ⟨n, hn, ha⟩
      exact ⟨ha, n, callee_of_mem h hn, hn⟩
  | .instruction span name arguments => by
    unfold expr
    simp only [Report.clean_append, clean_arguments h arguments, clean_instruction, Expr.Yields]
    constructor
    . rintro ⟨ha, i, hi, hn⟩
      exact ⟨i.returns, ⟨i, hi, hn, rfl⟩, ha⟩
    . rintro ⟨n, ⟨i, hi, hn, _⟩, ha⟩
      exact ⟨ha, i, hi, hn⟩

theorem expr_of_yields {env : Env} {c : Context} (h : env.Agrees c) :
    (e : Expr) → {n : Nat} → e.Yields c n → (env.expr e).1 = some n
  | .literal l, n, hy => by
    rw [hy.2]
    rfl
  | .identifier i, n, hy => by
    rw [hy.2]
    exact value_of_clean ((clean_value h i).2 hy.1)
  | .call span i arguments, n, hy => callee_of_mem h hy.1
  | .instruction span name arguments, n, hy => by
    obtain ⟨⟨i, hi, _, hn⟩, _⟩ := hy
    unfold expr instruction
    simp [hi, hn]

theorem clean_arguments {env : Env} {c : Context} (h : env.Agrees c) :
    (es : List Expr) → ((env.arguments es).Clean ↔ Expr.AllSingle c es)
  | [] => by simp [arguments, Expr.AllSingle]
  | e :: es => by
    unfold arguments Expr.AllSingle
    simp only [Report.clean_append, clean_expr h e, clean_valueCount, clean_arguments h es]
    constructor
    . rintro ⟨⟨⟨n, hn⟩, hcount⟩, hes⟩
      have := hcount n (expr_of_yields h e hn)
      exact ⟨this ▸ hn, hes⟩
    . rintro ⟨he, hes⟩
      refine ⟨⟨⟨1, he⟩, ?_⟩, hes⟩
      intro n hn
      rw [expr_of_yields h e he] at hn
      injection hn with hn
      exact hn.symm

end

theorem clean_expect {env : Env} {c : Context} (h : env.Agrees c) (e : Expr) (n : Nat) :
    (env.expect e n).Clean ↔ e.Yields c n := by
  unfold expect
  simp only [Report.clean_append, clean_expr h e, clean_valueCount]
  constructor
  . rintro ⟨⟨m, hm⟩, hcount⟩
    have := hcount m (expr_of_yields h e hm)
    exact this ▸ hm
  . intro he
    refine ⟨⟨n, he⟩, ?_⟩
    intro m hm
    rw [expr_of_yields h e he] at hm
    injection hm with hm
    exact hm.symm

theorem clean_unused {env : Env} {c : Context} (h : env.Agrees c) (e : Expr) :
    (env.unused e).Clean ↔ e.Yields c 0 := by
  have hclean := clean_expr h e
  unfold unused
  dsimp only
  constructor
  . intro hr
    have hsplit : (env.expr e).2.Clean ∧ ∀ n, (env.expr e).1 = some n → n = 0 := by
      split at hr <;> simp_all
    obtain ⟨n, hn⟩ := hclean.1 hsplit.1
    have := hsplit.2 n (expr_of_yields h e hn)
    exact this ▸ hn
  . intro he
    rw [expr_of_yields h e he]
    simpa using hclean.2 ⟨0, he⟩

theorem clean_stackForm {env : Env} {c : Context} (h : env.Agrees c) (form : StackForm) :
    (env.stackForm form).Clean ↔ c.stackForms = true ∧ form.Valid c := by
  unfold stackForm
  rw [h.stackForms]
  cases c.stackForms with
  | false => simp
  | true => cases form <;> simp [StackForm.Valid, clean_target h]

/-! ## Declarations -/

theorem clean_declare_iff {env : Env} {c : Context} (h : env.AgreesWithin c) (x : String)
    (b : Binding) : (env.declare x b).2.Clean ↔ c.Declarable x :=
  clean_declare.trans h.meaning?_eq_none

theorem AgreesWithin.declare_variable {env : Env} {c : Context} (h : env.AgreesWithin c)
    {x : String} {span : Span} (hx : (env.declare x ⟨.variable, span⟩).2.Clean) :
    (env.declare x ⟨.variable, span⟩).1.AgreesWithin (c.addVariable x) := by
  rw [declare_eq_insert hx]
  exact h.insert_variable ((clean_declare_iff h x _).1 hx)

theorem declareAll_spec {env : Env} {c : Context} (h : env.AgreesWithin c) (xs : List Binder) :
    ((env.declareAll xs).2.Clean ↔ c.AllDeclarable xs) ∧
    ((env.declareAll xs).2.Clean → (env.declareAll xs).1.AgreesWithin (c.declare xs)) := by
  induction xs generalizing env c with
  | nil => exact ⟨Iff.rfl.trans (by simp [Context.AllDeclarable, declareAll]), fun _ => h⟩
  | cons x xs ih =>
    unfold declareAll Context.AllDeclarable Context.declare
    simp only [Report.clean_append]
    have hx := clean_declare_iff h x.name ⟨.variable, x.span⟩
    constructor
    . rw [← hx]
      exact and_congr_right fun hclean => (ih (h.declare_variable hclean)).1
    . intro hclean
      exact (ih (h.declare_variable hclean.1)).2 hclean.2

theorem declareTogether_spec {env : Env} {c : Context} (h : env.AgreesWithin c)
    {seen : List String} (hseen : ∀ x ∈ seen, x ∈ c.vars) (xs : List Binder) :
    ((env.declareTogether seen xs).2.Clean ↔ c.AllDeclarable xs) ∧
    ((env.declareTogether seen xs).2.Clean →
      (env.declareTogether seen xs).1.AgreesWithin (c.declare xs)) := by
  induction xs generalizing env c seen with
  | nil => exact ⟨Iff.rfl.trans (by simp [Context.AllDeclarable, declareTogether]), fun _ => h⟩
  | cons x xs ih =>
    unfold declareTogether Context.AllDeclarable Context.declare
    have hx := clean_declare_iff h x.name ⟨.variable, x.span⟩
    by_cases hmem : x.name ∈ seen
    . rw [if_pos (List.contains_iff_mem.2 hmem)]
      simp only [Report.clean_append, Report.not_clean_fault, false_and, false_iff, false_implies,
        and_true]
      intro hnew
      exact hnew.1.1 (hseen _ hmem)
    . rw [if_neg (mt List.contains_iff_mem.1 hmem)]
      simp only [Report.clean_append]
      have hseen' : ∀ y ∈ x.name :: seen, y ∈ (c.addVariable x.name).vars := by
        intro y hy
        exact List.mem_cons.2 ((List.mem_cons.1 hy).imp_right (hseen y))
      constructor
      . rw [← hx]
        exact and_congr_right fun hclean => (ih (h.declare_variable hclean) hseen').1
      . intro hclean
        exact (ih (h.declare_variable hclean.1) hseen').2 hclean.2

theorem hoist_spec {env : Env} {c : Context} (h : env.AgreesWithin c) (ss : List Stmt) :
    ((env.hoist ss).2.Clean ↔ c.CanEnter ss) ∧
    ((env.hoist ss).2.Clean → (env.hoist ss).1.AgreesWithin (c.enter ss)) := by
  induction ss generalizing env c with
  | nil => exact ⟨Iff.rfl.trans (by simp [Context.CanEnter, hoist]), fun _ => h⟩
  | cons s ss ih =>
    unfold hoist Context.CanEnter Context.enter
    simp only [Report.clean_append]
    split
    . next f body =>
      have hx := clean_declare_iff h f.name ⟨.function f.parameters.length f.returns.length, f.span⟩
      have hnext := fun hclean => declare_eq_insert hclean ▸
        h.insert_function f.span (f := f.head) (hx.1 hclean)
      constructor
      . exact (and_congr_right fun hclean => (ih (hnext hclean)).1).trans (and_congr_left fun _ => hx)
      . exact fun hclean => (ih (hnext hclean.1)).2 hclean.2
    . next span name =>
      have hx := clean_declare_iff h name ⟨.label, span⟩
      have hnext := fun hclean => declare_eq_insert hclean ▸ h.insert_label span (hx.1 hclean)
      constructor
      . exact (and_congr_right fun hclean => (ih (hnext hclean)).1).trans (and_congr_left fun _ => hx)
      . exact fun hclean => (ih (hnext hclean.1)).2 hclean.2
    . next hf hl =>
      have hannounce : c.announce s = c ∧ (c.CanAnnounce s ↔ True) := by
        unfold Context.announce Context.CanAnnounce
        split <;> simp_all
      rw [hannounce.1, hannounce.2]
      simpa using ih h

/-! ## Cases -/

def HeadsClean (seen : SeenCases) : List (Option Literal) → Prop
  | [] => True
  | v :: vs => (caseHead seen v).2.Clean ∧ HeadsClean (caseHead seen v).1 vs

theorem caseHead_some (seen : SeenCases) (l : Literal) :
    caseHead seen (some l) = ((caseValue seen l).1, literal l ++ (caseValue seen l).2) := rfl

theorem clean_caseValue {seen : SeenCases} {l : Literal} :
    (caseValue seen l).2.Clean ↔ ∀ n, l.value? = some n → seen.lookup n = none := by
  unfold caseValue
  cases l.value? with
  | none => simp
  | some n =>
    simp only [Option.some.injEq, forall_eq']
    cases seen.lookup n <;> simp

theorem caseValue_seen (seen : SeenCases) (l : Literal) : (caseValue seen l).1 =
    match l.value? with
    | none => seen
    | some n => (n, l.span) :: seen := by
  unfold caseValue
  cases l.value? with
  | none => rfl
  | some n => cases hn : seen.lookup n <;> simp [hn]

theorem headsClean_iff {seen : SeenCases} (heads : List (Option Literal)) :
    HeadsClean seen heads ↔ (∀ l, some l ∈ heads → l.Valid) ∧
      ((heads.filterMap id).filterMap Literal.value?).Nodup ∧
      ∀ n ∈ (heads.filterMap id).filterMap Literal.value?, seen.lookup n = none := by
  induction heads generalizing seen with
  | nil => simp [HeadsClean]
  | cons v vs ih =>
    unfold HeadsClean
    cases v with
    | none => simp [caseHead, ih]
    | some l =>
      rw [caseHead_some, Report.clean_append, clean_caseValue, ih, caseValue_seen]
      have hl : (literal l).Clean ↔ l.Valid := Iff.rfl
      rw [hl]
      cases hv : l.value? with
      | none => simp [hv, and_assoc]
      | some n =>
        simp only [List.filterMap_cons, id, hv, List.nodup_cons, List.mem_cons, List.lookup_cons]
        grind

theorem clean_defaults {span : Span} {cs : List Case} :
    (defaults span cs).Clean ↔ (cs.map Case.value).countP Option.isNone ≤ 1 := by
  unfold defaults
  rw [Report.clean_onlyIf, List.countP_map, decide_eq_false_iff_not, Nat.not_lt]
  rfl

/-! ## Statements -/

mutual

theorem stmt_spec {env : Env} {c : Context} (h : env.AgreesWithin c) : (s : Stmt) →
    ((env.stmt s).2.Clean ↔ s.Valid c ∧ s.DeclaresNew c) ∧
    ((env.stmt s).2.Clean → (env.stmt s).1.AgreesWithin (c.declare s.declared))
  | .expression e => by
    simp only [stmt, Stmt.Valid, Stmt.DeclaresNew, clean_unused h.toAgrees, and_true]
    exact ⟨trivial, fun _ => h⟩
  | .declaration _ vars value => by
    obtain ⟨hclean, hnext⟩ := declareTogether_spec h (List.forall_mem_nil (· ∈ c.vars)) vars
    simp only [stmt, Stmt.DeclaresNew, Stmt.declared, Report.clean_append, hclean]
    refine ⟨and_congr_left fun _ => ?_, fun hboth => hnext (hclean.2 hboth.2)⟩
    cases value with
    | none => simp [initialiser, Stmt.Valid]
    | some value => exact clean_expect h.toAgrees value vars.length
  | .assignment _ targets value => by
    simp only [stmt, Stmt.Valid, Stmt.DeclaresNew, Report.clean_append, clean_expect h.toAgrees,
      clean_targets h.toAgrees, h.targetless, implies_true, and_true]
    exact ⟨trivial, fun _ => h⟩
  | .conditional _ condition body => by
    simp only [stmt, Stmt.Valid, Stmt.DeclaresNew, Report.clean_append, clean_expect h.toAgrees,
      block_spec h.toAgrees body, and_assoc]
    exact ⟨trivial, fun _ => h⟩
  | .switch span subject arms => by
    simp only [stmt, Stmt.Valid, Stmt.DeclaresNew, Report.clean_append, clean_expect h.toAgrees,
      cases_spec h.toAgrees [] arms, clean_defaults, headsClean_iff, Case.HeadsValid,
      List.lookup_nil, implies_true, and_true]
    refine ⟨?_, fun _ => h⟩
    constructor
    . rintro ⟨⟨hs, ha, hn, hv, hu⟩, hd⟩
      exact ⟨⟨hs, ha, hv, hu, hd⟩, hn⟩
    . rintro ⟨⟨hs, ha, hv, hu, hd⟩, hn⟩
      exact ⟨⟨hs, ha, hn, hv, hu⟩, hd⟩
  | .loop _ ⟨_, pre⟩ condition post body => by
    obtain ⟨hhoist, henter⟩ := hoist_spec h.toAgrees.enter pre
    refine ⟨?_, fun _ => h⟩
    unfold stmt Stmt.Valid Stmt.DeclaresNew
    simp only [Report.clean_append, and_assoc]
    constructor
    -- The scopes of a part are only known where all in front of it is clean, so the parts are taken
    -- in their order, in either direction.
    . rintro ⟨h₁, h₂, h₃, h₄, h₅⟩
      obtain ⟨hpre, hafter⟩ := stmts_spec (henter h₁) pre
      have hin := hafter h₂
      rw [clean_expect hin.toAgrees] at h₃
      rw [block_spec hin.toAgrees] at h₄ h₅
      have h₂' := hpre.1 h₂
      exact ⟨h₂'.1, h₃, h₄.1, h₅.1, hhoist.1 h₁, h₂'.2, h₄.2, h₅.2⟩
    . rintro ⟨v₂, v₃, v₄, v₅, n₁, n₂, n₄, n₅⟩
      have h₁ := hhoist.2 n₁
      obtain ⟨hpre, hafter⟩ := stmts_spec (henter h₁) pre
      have h₂ := hpre.2 ⟨v₂, n₂⟩
      have hin := hafter h₂
      exact ⟨h₁, h₂, (clean_expect hin.toAgrees _ _).2 v₃, (block_spec hin.toAgrees post).2 ⟨v₄, n₄⟩,
        (block_spec hin.toAgrees body).2 ⟨v₅, n₅⟩⟩
  | .function ⟨f, body⟩ => by
    obtain ⟨hclean, hnext⟩ := declareAll_spec h.toAgrees.enter_true (f.parameters ++ f.returns)
    refine ⟨?_, fun _ => h⟩
    unfold stmt Stmt.Valid Stmt.DeclaresNew Context.enterFunction
    simp only [Report.clean_append]
    constructor
    . rintro ⟨h₁, h₂⟩
      rw [block_spec (hnext h₁).toAgrees body] at h₂
      exact ⟨h₂.1, hclean.1 h₁, h₂.2⟩
    . rintro ⟨v₂, n₁, n₂⟩
      have h₁ := hclean.2 n₁
      exact ⟨h₁, (block_spec (hnext h₁).toAgrees body).2 ⟨v₂, n₂⟩⟩
  | .block b => ⟨block_spec h.toAgrees b, fun _ => h⟩
  | .stack form => by
    simp only [stmt, Stmt.Valid, Stmt.DeclaresNew, clean_stackForm h.toAgrees, and_true]
    exact ⟨trivial, fun _ => h⟩

theorem stmts_spec {env : Env} {c : Context} (h : env.AgreesWithin c) : (ss : List Stmt) →
    ((env.stmts ss).2.Clean ↔ Stmt.AllValid c ss ∧ Stmt.AllDeclareNew c ss) ∧
    ((env.stmts ss).2.Clean → (env.stmts ss).1.AgreesWithin (c.after ss))
  | [] => by
    simp only [stmts, Stmt.AllValid, Stmt.AllDeclareNew, Report.clean_empty, and_true]
    exact ⟨trivial, fun _ => h⟩
  | s :: ss => by
    obtain ⟨hs, hnext⟩ := stmt_spec h s
    unfold stmts Stmt.AllValid Stmt.AllDeclareNew Context.after
    simp only [Report.clean_append]
    refine ⟨?_, fun hclean => (stmts_spec (hnext hclean.1) ss).2 hclean.2⟩
    constructor
    . rintro ⟨h₁, h₂⟩
      rw [(stmts_spec (hnext h₁) ss).1] at h₂
      rw [hs] at h₁
      exact ⟨⟨h₁.1, h₂.1⟩, h₁.2, h₂.2⟩
    . rintro ⟨⟨v₁, v₂⟩, n₁, n₂⟩
      have h₁ := hs.2 ⟨v₁, n₁⟩
      exact ⟨h₁, (stmts_spec (hnext h₁) ss).1.2 ⟨v₂, n₂⟩⟩

theorem block_spec {env : Env} {c : Context} (h : env.Agrees c) :
    (b : Block) → ((env.block b).Clean ↔ b.Valid c ∧ b.DeclaresNew c)
  | ⟨_, ss⟩ => by
    obtain ⟨hhoist, henter⟩ := hoist_spec h.enter ss
    unfold block Block.Valid Block.DeclaresNew
    simp only [Report.clean_append]
    constructor
    . rintro ⟨h₁, h₂⟩
      rw [(stmts_spec (henter h₁) ss).1] at h₂
      exact ⟨h₂.1, hhoist.1 h₁, h₂.2⟩
    . rintro ⟨v₂, n₁, n₂⟩
      have h₁ := hhoist.2 n₁
      exact ⟨h₁, (stmts_spec (henter h₁) ss).1.2 ⟨v₂, n₂⟩⟩

theorem cases_spec {env : Env} {c : Context} (h : env.Agrees c) (seen : SeenCases) :
    (cs : List Case) → ((env.cases seen cs).Clean ↔
      Case.AllValid c cs ∧ Case.AllDeclareNew c cs ∧ HeadsClean seen (cs.map Case.value))
  | [] => by simp [cases, Case.AllValid, Case.AllDeclareNew, HeadsClean]
  | ⟨_, value, body⟩ :: cs => by
    unfold cases Case.AllValid Case.AllDeclareNew
    simp only [Report.clean_append, block_spec h body, cases_spec h _ cs, List.map_cons, HeadsClean]
    constructor
    . rintro ⟨⟨hh, hv, hn⟩, hvs, hns, hhs⟩
      exact ⟨⟨hv, hvs⟩, ⟨hn, hns⟩, hh, hhs⟩
    . rintro ⟨⟨hv, hvs⟩, ⟨hn, hns⟩, hh, hhs⟩
      exact ⟨⟨hh, hv, hn⟩, hvs, hns, hhs⟩

end

end Env

def Context.root (d : Dialect) (external : List String) : Context where
  external := Text.ordered external
  assignable := Text.ordered external
  stackForms := d.stackForms
  targetless := true
  vars := []
  functions := []
  labels := []

theorem Env.meaning?_root (d : Dialect) (external : List String) (x : String) :
    (⟨d, external, []⟩ : Env).meaning? x = if x ∈ external then some .variable else none := by
  unfold meaning? lookup lookupIn
  by_cases hx : x ∈ external <;> simp [hx]

theorem Env.agrees_root (d : Dialect) (external : List String) :
    (⟨d, Text.ordered external, []⟩ : Env).Agrees (.root d external) where
  stackForms := rfl
  targetless := rfl
  assignable := rfl
  external := rfl
  host _ _ := rfl
  readable x := by simp [meaning?_root, Context.Readable, Context.root]
  callable f := by simp [meaning?_root, Context.root]
  labelled x := by simp [meaning?_root, Context.root]

/--
The analysis accepts exactly the programs that keep to the rules.
-/
theorem isOk_analyze {d : Dialect} {external : List String} {b : Block} :
    (analyze d external b).isOk = true ↔
      b.Valid (.root d external) ∧ b.DeclaresNew (.root d external) := by
  rw [← Env.block_spec (Env.agrees_root d external) b]
  unfold analyze Report.Clean
  dsimp only
  rw [← List.isEmpty_iff]
  split <;> simp_all [Except.isOk, Except.toBool]

theorem parseAndAnalyze_eq_ok {d : Dialect} {external : List String} {source : String} {b : Block}
    {info : Info} :
    parseAndAnalyze d external source = .ok (b, info) ↔
      parse d source = .ok b ∧ analyze d external b = .ok info := by
  unfold parseAndAnalyze
  cases parse d source with
  | error ds => simp [bind, Except.bind]
  | ok root =>
    change (analyze d external root >>= fun info => pure (root, info)) = _ ↔ _
    cases hinfo : analyze d external root with
    | error ds =>
      constructor
      . intro h
        cases h
      . rintro ⟨h, hok⟩
        cases h
        rw [hinfo] at hok
        cases hok
    | ok info' =>
      change Except.ok (root, info') = _ ↔ _
      constructor
      . intro h
        cases h
        exact ⟨rfl, hinfo⟩
      . rintro ⟨h, hok⟩
        cases h
        rw [hinfo] at hok
        cases hok
        rfl

end Splice
