import Splice.Proofs.Analysis.Definitions
import Splice.Proofs.Safety.Steps

/-!
This module contains the proof that a program that keeps to the rules does not get stuck: what is
visible at a place of the program is bound whenever a run comes there.
-/

namespace Splice
namespace Safety

variable {m : Interpretation} {external : List String} {c : Context} {fs : Functions}

/-! ## What is visible and what is bound -/

structure Shows (c : Context) (μ : Memory m) : Prop where
  vars : μ.locals.names.flatten = c.vars
  host : ∀ x ∈ c.external, (μ.world.host x).isSome = true

namespace Shows

variable {μ μ' : Memory m} {xs : List Binder}

theorem flatten_bindNames {names : List (List String)} (h : names.flatten = c.vars)
    (xs : List Binder) : (bindNames xs names).flatten = (c.declare xs).vars := by
  induction xs generalizing c names with
  | nil => exact h
  | cons x xs ih =>
    have hx : (bindName x.name names).flatten = (c.addVariable x.name).vars := by
      rw [Context.addVariable, ← h]
      cases names <;> rfl
    exact ih hx

theorem declare (h : Shows c μ) (hμ' : Became xs μ μ') : Shows (c.declare xs) μ' := by
  have hvars := flatten_bindNames h.vars xs
  rw [← hμ'.names] at hvars
  refine ⟨hvars, fun x hx => hμ'.host x (h.host x ?_)⟩
  rwa [c.declare_eq] at hx

theorem same (h : Shows c μ) (hμ' : Became [] μ μ') : Shows c μ' :=
  h.declare hμ'

theorem readable (h : Shows c μ) {x : String} (hx : c.Readable x) :
    x ∈ μ.locals.names.flatten ∨ (μ.world.host x).isSome = true := by
  rw [h.vars]
  exact hx.imp_right (h.host x)

theorem enter (h : Shows c μ) (ss : List Stmt) :
    Shows (c.enter ss) { μ with locals := [] :: μ.locals } := by
  rw [c.enter_eq]
  exact ⟨h.vars, h.host⟩

end Shows

/--
The functions around a place are those that are visible there, each of them with the functions
around its own definition.
-/
inductive Knows (external : List String) : Context → Functions → Prop where
  | root {c : Context} (hexternal : c.external = external) (hassignable : c.assignable = external)
    (hstackForms : c.stackForms = false) (hfunctions : c.functions = []) : Knows external c []
  | enter {c : Context} {fs : Functions} (h : Knows external c fs) {ss : List Stmt}
    (hvalid : Stmt.AllValid (c.enter ss) ss) (hnew : c.CanEnter ss)
    (hdeclares : Stmt.AllDeclareNew (c.enter ss) ss) :
    Knows external (c.enter ss) (definitions ss :: fs)
  | declare {c : Context} {fs : Functions} (h : Knows external c fs) (xs : List Binder) :
    Knows external (c.declare xs) fs
  | hide {c : Context} {fs : Functions} (h : Knows external c fs) :
    Knows external { c with vars := [] } fs

theorem mem_definitions {ss : List Stmt} {f : Function} :
    f ∈ definitions ss ↔ .function f ∈ ss := by
  induction ss with
  | nil => simp [definitions]
  | cons s ss ih => cases s <;> simp [definitions, ih]

namespace Knows

theorem host (h : Knows external c fs) :
    c.external = external ∧ c.assignable = external ∧ c.stackForms = false := by
  induction h with
  | root hexternal hassignable hstackForms _ => exact ⟨hexternal, hassignable, hstackForms⟩
  | @enter c fs h ss _ _ _ ih =>
    rw [c.enter_eq]
    exact ih
  | @declare c fs h xs ih =>
    rw [c.declare_eq]
    exact ih
  | hide h ih => exact ih

theorem after (h : Knows external c fs) (ss : List Stmt) : Knows external (c.after ss) fs := by
  induction ss generalizing c with
  | nil => exact h
  | cons s ss ih => exact ih (h.declare s.declared)

theorem enterFunction (h : Knows external c fs) (xs : List Binder) :
    Knows external (c.enterFunction xs) fs :=
  h.hide.declare xs

def Sound (external : List String) (f : Function) (fs : Functions) : Prop :=
  ∃ c, Knows external c fs ∧ f.body.Valid (c.enterFunction (f.parameters ++ f.returns)) ∧
    f.body.DeclaresNew (c.enterFunction (f.parameters ++ f.returns))

theorem find?_of_mem (h : Knows external c fs) {f : Head} (hf : f ∈ c.functions) :
    ∃ g inner, fs.find? f.name = some (g, inner) ∧ g.head = f ∧ Sound external g inner := by
  induction h with
  | root _ _ _ hfunctions =>
    rw [hfunctions] at hf
    contradiction
  | @enter c fs h ss hvalid hnew hdeclares ih =>
    have hmem := Context.mem_functions_enter hf
    unfold Functions.find?
    split
    . next g hg =>
      obtain ⟨g, body⟩ := g
      have hgname : g.name = f.name := by simpa using List.find?_some hg
      have hgmem := mem_definitions.1 (List.mem_of_find?_eq_some hg)
      refine ⟨⟨g, body⟩, _, rfl, ?_, _, h.enter hvalid hnew hdeclares,
        body_valid_of_allValid hvalid hgmem, body_declaresNew_of_allDeclareNew hdeclares hgmem⟩
      rcases hmem with hmem | ⟨f, body', hfmem, rfl⟩
      . refine (Context.notMem_functions_of_canEnter hnew hgmem ?_).elim
        rw [hgname]
        exact List.mem_map_of_mem hmem
      . obtain ⟨rfl, _⟩ := Context.eq_of_canEnter hnew hgmem hfmem hgname
        rfl
    . next hnone =>
      rcases hmem with hmem | ⟨f, body, hfmem, rfl⟩
      . exact ih hmem
      . have hne := List.find?_eq_none.1 hnone _ (mem_definitions.2 hfmem)
        exact (hne (decide_eq_true rfl)).elim
  | @declare c fs h xs ih =>
    rw [c.functions_declare] at hf
    exact ih hf
  | hide h ih => exact ih hf

end Knows

/-! ## Programs -/

/--
Within `n` steps, nothing that keeps to the rules gets stuck. An expression yields as many values as
the rules say, a call as many as the function returns.
-/
structure SafeWithin (m : Interpretation) (external : List String) (n : Nat) : Prop where
  expr : ∀ {c fs} {μ : Memory m} {e k}, Knows external c fs → Shows c μ → e.Yields c k →
    Safe (evalExpr n fs e) μ fun vs μ' => vs.length = k ∧ Became [] μ μ'
  arguments : ∀ {c fs} {μ : Memory m} {es}, Knows external c fs → Shows c μ →
    Expr.AllSingle c es →
    Safe (evalArguments n fs es) μ fun vs μ' => vs.length = es.length ∧ Became [] μ μ'
  invoke : ∀ {fs f} {μ : Memory m} {vs : List m.Value}, Knows.Sound external f fs →
    (∀ x ∈ external, (μ.world.host x).isSome = true) → vs.length = f.parameters.length →
    Safe (invoke n fs f vs) μ fun vs' μ' => vs'.length = f.returns.length ∧ Became [] μ μ'
  stmt : ∀ {c fs} {μ : Memory m} {s}, Knows external c fs → Shows c μ → s.Valid c →
    s.DeclaresNew c → Safe (execStmt n fs s) μ fun _ μ' => Became s.declared μ μ'
  stmts : ∀ {c fs} {μ : Memory m} {ss}, Knows external c fs → Shows c μ → Stmt.AllValid c ss →
    Stmt.AllDeclareNew c ss →
    Safe (execStmts n fs ss) μ fun _ μ' => Became (ss.flatMap Stmt.declared) μ μ'
  rounds : ∀ {c fs} {μ : Memory m} {condition post body}, Knows external c fs → Shows c μ →
    condition.Yields c 1 → post.Valid c → post.DeclaresNew c → body.Valid c → body.DeclaresNew c →
    Safe (execRounds n fs condition post body) μ fun _ μ' => Became [] μ μ'
  block : ∀ {c fs} {μ : Memory m} {b}, Knows external c fs → Shows c μ → b.Valid c →
    b.DeclaresNew c → Safe (execBlock n fs b) μ fun _ μ' => Became [] μ μ'

namespace SafeWithin

variable {n : Nat} {μ : Memory m}

theorem zero : SafeWithin m external 0 where
  expr _ _ _ := Safe.exhausted
  arguments _ _ _ := Safe.exhausted
  invoke _ _ _ := Safe.exhausted
  stmt _ _ _ _ := Safe.exhausted
  stmts _ _ _ _ := Safe.exhausted
  rounds _ _ _ _ _ _ _ := Safe.exhausted
  block _ _ _ _ := Safe.exhausted

/-! ### Expressions -/

theorem single (h : SafeWithin m external n) (hfs : Knows external c fs) (hμ : Shows c μ) {e : Expr}
    (he : e.Yields c 1) {α : Type} {f : m.Value → Run m α} {P : α → Memory m → Prop}
    (hf : ∀ v μ', Became [] μ μ' → Safe (f v) μ' P) :
    Safe (do f (← Run.one (← evalExpr n fs e))) μ P := by
  refine (h.expr hfs hμ he).bind fun vs μ₁ ⟨hlength, hμ₁⟩ => ?_
  refine (Run.safe_one hlength).bind ?_
  rintro v _ rfl
  exact hf v _ hμ₁

theorem expr_succ (hm : m.Fits) (h : SafeWithin m external n) (hfs : Knows external c fs)
    (hμ : Shows c μ) {e : Expr} {k : Nat} (he : e.Yields c k) :
    Safe (evalExpr (n + 1) fs e) μ fun vs μ' => vs.length = k ∧ Became [] μ μ' := by
  cases e with
  | literal l =>
    obtain ⟨-, rfl⟩ := he
    exact Safe.pure ⟨rfl, .refl μ⟩
  | identifier i =>
    obtain ⟨hi, rfl⟩ := he
    refine (Run.safe_read (hμ.readable hi)).bind ?_
    rintro v _ rfl
    exact Safe.pure ⟨rfl, .refl _⟩
  | call span callee arguments =>
    obtain ⟨hcallee, harguments⟩ := he
    obtain ⟨g, inner, hfind, hhead, hsound⟩ := hfs.find?_of_mem hcallee
    injection hhead with _ hparameters hreturns
    refine (h.arguments hfs hμ harguments).bind fun vs μ₁ ⟨hlength, hμ₁⟩ => ?_
    have hhost := (hμ.same hμ₁).host
    rw [hfs.host.1] at hhost
    dsimp only at hfind
    rw [hfind]
    refine (h.invoke hsound hhost (hlength.trans hparameters.symm)).imp ?_
    rintro vs' μ₂ ⟨hlength', hμ₂⟩
    exact ⟨hlength'.trans hreturns, hμ₁.trans hμ₂⟩
  | instruction span name arguments =>
    obtain ⟨⟨i, hi, hcount, rfl⟩, harguments⟩ := he
    refine (h.arguments hfs hμ harguments).bind fun vs μ₁ ⟨hlength, hμ₁⟩ => ?_
    refine (Run.safe_instruction hm hi (hlength.trans hcount.symm)).imp ?_
    rintro vs' μ₂ ⟨hlength', hμ₂⟩
    exact ⟨hlength', hμ₁.trans hμ₂⟩

theorem arguments_succ (h : SafeWithin m external n) (hfs : Knows external c fs) (hμ : Shows c μ)
    {es : List Expr} (hes : Expr.AllSingle c es) :
    Safe (evalArguments (n + 1) fs es) μ fun vs μ' => vs.length = es.length ∧ Became [] μ μ' := by
  cases es with
  | nil => exact Safe.pure ⟨rfl, .refl μ⟩
  | cons e es =>
    refine (h.arguments hfs hμ hes.2).bind fun vs μ₁ ⟨hlength, hμ₁⟩ => ?_
    refine h.single hfs (hμ.same hμ₁) hes.1 fun v μ₂ hμ₂ => ?_
    exact Safe.pure ⟨congrArg (· + 1) hlength, hμ₁.trans hμ₂⟩

theorem invoke_succ (h : SafeWithin m external n) {f : Function} (hf : Knows.Sound external f fs)
    (hhost : ∀ x ∈ external, (μ.world.host x).isSome = true) {vs : List m.Value}
    (hvs : vs.length = f.parameters.length) :
    Safe (Safety.invoke (n + 1) fs f vs) μ fun vs' μ' =>
      vs'.length = f.returns.length ∧ Became [] μ μ' := by
  obtain ⟨c, hfs, hvalid, hnew⟩ := hf
  have hstart : Shows { c with vars := [] } { μ with locals := [[]] } := by
    refine ⟨rfl, ?_⟩
    intro x hx
    exact hhost x (hfs.host.1 ▸ hx)
  refine Run.safe_inFrame (f.parameters ++ f.returns) ?_
  refine (Run.safe_declareAll hvs).bind fun _ μ₁ hμ₁ => ?_
  refine (Run.safe_declareZeros f.returns).bind fun _ μ₂ hμ₂ => ?_
  have hdeclared := hμ₁.append hμ₂
  have hshows : Shows (c.enterFunction (f.parameters ++ f.returns)) μ₂ := hstart.declare hdeclared
  refine (h.block (hfs.enterFunction _) hshows hvalid hnew).bind fun _ μ₃ hμ₃ => ?_
  have hreturns : ∀ x ∈ f.returns, x.name ∈ μ₃.locals.names.flatten := by
    intro x hx
    rw [(hshows.same hμ₃).vars, Context.enterFunction, Context.mem_vars_declare, List.map_append]
    exact .inl (List.mem_append_right _ (List.mem_map_of_mem hx))
  refine (Run.safe_readAll hreturns).imp ?_
  rintro vs' _ ⟨hlength, rfl⟩
  refine ⟨hlength, ?_⟩
  have hbecame := hdeclared.append hμ₃
  rwa [List.append_nil] at hbecame

/-! ### Statements -/

theorem chosen?_valid {v : m.Value} {arms : List Case} (hv : Case.AllValid c arms)
    (hd : Case.AllDeclareNew c arms) {body : Block} (h : chosen? v arms = some body) :
    body.Valid c ∧ body.DeclaresNew c := by
  obtain ⟨arm, harm, rfl⟩ := Option.map_eq_some_iff.1 h
  have hmem : arm ∈ arms := by
    rcases Option.or_eq_some_iff.1 harm with harm | ⟨-, harm⟩
    . exact List.mem_of_find?_eq_some harm
    . exact List.mem_of_find?_eq_some harm
  exact cases_valid hv hd hmem
where
  cases_valid {arms : List Case} (hv : Case.AllValid c arms) (hd : Case.AllDeclareNew c arms)
      {arm : Case} (harm : arm ∈ arms) : arm.body.Valid c ∧ arm.body.DeclaresNew c := by
    induction arms with
    | nil => contradiction
    | cons first arms ih =>
      obtain ⟨span, value, body⟩ := first
      rcases List.mem_cons.1 harm with rfl | harm
      . exact ⟨hv.1, hd.1⟩
      . exact ih hv.2 hd.2 harm

theorem stmt_succ (h : SafeWithin m external n) (hfs : Knows external c fs) (hμ : Shows c μ)
    {s : Stmt} (hv : s.Valid c) (hd : s.DeclaresNew c) :
    Safe (execStmt (n + 1) fs s) μ fun _ μ' => Became s.declared μ μ' := by
  cases s with
  | expression e =>
    refine (h.expr hfs hμ hv).bind fun vs μ₁ ⟨hlength, hμ₁⟩ => ?_
    refine (Run.safe_nothing hlength).imp ?_
    rintro _ _ rfl
    exact hμ₁
  | declaration span vars value =>
    cases value with
    | none => exact Run.safe_declareZeros vars
    | some value =>
      refine (h.expr hfs hμ hv).bind fun vs μ₁ ⟨hlength, hμ₁⟩ => ?_
      exact (Run.safe_declareAll hlength).imp fun _ _ hμ₂ => hμ₁.trans hμ₂
  | assignment span targets value =>
    obtain ⟨hvalue, htargets, -⟩ := hv
    refine (h.expr hfs hμ hvalue).bind fun vs μ₁ ⟨hlength, hμ₁⟩ => ?_
    have hbound : ∀ i ∈ targets,
        i.name ∈ μ₁.locals.names.flatten ∨ (μ₁.world.host i.name).isSome = true := by
      intro i hi
      refine (hμ.same hμ₁).readable ((htargets i hi).imp_right fun hmem => ?_)
      rwa [hfs.host.2.1, ← hfs.host.1] at hmem
    exact (Run.safe_assignAll hlength hbound).imp fun _ _ hμ₂ => hμ₁.trans hμ₂
  | conditional span condition body =>
    refine h.single hfs hμ hv.1 fun v μ₁ hμ₁ => ?_
    split
    . exact Safe.pure hμ₁
    . exact (h.block hfs (hμ.same hμ₁) hv.2 hd).imp fun _ _ hμ₂ => hμ₁.trans hμ₂
  | switch span subject arms =>
    refine h.single hfs hμ hv.1 fun v μ₁ hμ₁ => ?_
    split
    . next body hchosen =>
      obtain ⟨hvalid, hnew⟩ := chosen?_valid hv.2.1 hd hchosen
      exact (h.block hfs (hμ.same hμ₁) hvalid hnew).imp fun _ _ hμ₂ => hμ₁.trans hμ₂
    . exact Safe.pure hμ₁
  | loop span pre condition post body =>
    obtain ⟨preSpan, pre⟩ := pre
    obtain ⟨hpre, hcondition, hpost, hbody⟩ := hv
    obtain ⟨hcanEnter, hpreNew, hpostNew, hbodyNew⟩ := hd
    have hinner := hfs.enter hpre hcanEnter hpreNew
    -- The rounds declare nothing beyond what `pre` did, and all of it is gone behind the loop.
    refine Run.safe_inScope (pre.flatMap Stmt.declared ++ []) ?_
    refine (h.stmts hinner (hμ.enter pre) hpre hpreNew).bind fun _ μ₁ hμ₁ => ?_
    have hshows := (hμ.enter pre).declare hμ₁
    rw [← Context.after_eq_declare] at hshows
    refine (h.rounds (hinner.after pre) hshows hcondition hpost hpostNew hbody hbodyNew).imp ?_
    exact fun _ _ hμ₂ => hμ₁.append hμ₂
  | function f => exact Safe.pure (.refl μ)
  | block b => exact h.block hfs hμ hv hd
  | stack form =>
    have hforms := hv.1
    rw [hfs.host.2.2] at hforms
    contradiction

theorem stmts_succ (h : SafeWithin m external n) (hfs : Knows external c fs) (hμ : Shows c μ)
    {ss : List Stmt} (hv : Stmt.AllValid c ss) (hd : Stmt.AllDeclareNew c ss) :
    Safe (execStmts (n + 1) fs ss) μ fun _ μ' => Became (ss.flatMap Stmt.declared) μ μ' := by
  cases ss with
  | nil => exact Safe.pure (.refl μ)
  | cons s ss =>
    refine (h.stmt hfs hμ hv.1 hd.1).bind fun _ μ₁ hμ₁ => ?_
    exact (h.stmts (hfs.declare _) (hμ.declare hμ₁) hv.2 hd.2).imp fun _ _ hμ₂ => hμ₁.append hμ₂

theorem rounds_succ (h : SafeWithin m external n) (hfs : Knows external c fs) (hμ : Shows c μ)
    {condition : Expr} {post body : Block} (hcondition : condition.Yields c 1)
    (hpost : post.Valid c) (hpostNew : post.DeclaresNew c) (hbody : body.Valid c)
    (hbodyNew : body.DeclaresNew c) :
    Safe (execRounds (n + 1) fs condition post body) μ fun _ μ' => Became [] μ μ' := by
  refine h.single hfs hμ hcondition fun v μ₁ hμ₁ => ?_
  split
  . exact Safe.pure hμ₁
  . refine (h.block hfs (hμ.same hμ₁) hbody hbodyNew).bind fun _ μ₂ hμ₂ => ?_
    have hμ₂ := hμ₁.trans hμ₂
    refine (h.block hfs (hμ.same hμ₂) hpost hpostNew).bind fun _ μ₃ hμ₃ => ?_
    have hμ₃ := hμ₂.trans hμ₃
    refine (h.rounds hfs (hμ.same hμ₃) hcondition hpost hpostNew hbody hbodyNew).imp ?_
    exact fun _ _ hμ₄ => hμ₃.trans hμ₄

theorem block_succ (h : SafeWithin m external n) (hfs : Knows external c fs) (hμ : Shows c μ)
    {b : Block} (hv : b.Valid c) (hd : b.DeclaresNew c) :
    Safe (execBlock (n + 1) fs b) μ fun _ μ' => Became [] μ μ' := by
  obtain ⟨span, ss⟩ := b
  exact Run.safe_inScope _ (h.stmts (hfs.enter hv hd.1 hd.2) (hμ.enter ss) hv hd.2)

theorem succ (hm : m.Fits) (h : SafeWithin m external n) : SafeWithin m external (n + 1) where
  expr hfs hμ he := h.expr_succ hm hfs hμ he
  arguments hfs hμ hes := h.arguments_succ hfs hμ hes
  invoke hf hhost hvs := h.invoke_succ hf hhost hvs
  stmt hfs hμ hv hd := h.stmt_succ hfs hμ hv hd
  stmts hfs hμ hv hd := h.stmts_succ hfs hμ hv hd
  rounds hfs hμ hcondition hpost hpostNew hbody hbodyNew :=
    h.rounds_succ hfs hμ hcondition hpost hpostNew hbody hbodyNew
  block hfs hμ hv hd := h.block_succ hfs hμ hv hd

theorem of_fits (hm : m.Fits) : ∀ n, SafeWithin m external n
  | 0 => zero
  | n + 1 => (of_fits hm n).succ hm

end SafeWithin

theorem run_ne_stuck_of_valid (hm : m.Fits) {b : Block} (hexternal : c.external = external)
    (hassignable : c.assignable = external) (hstackForms : c.stackForms = false)
    (hvars : c.vars = []) (hfunctions : c.functions = []) (hv : b.Valid c) (hd : b.DeclaresNew c)
    {start : World m} (hhost : ∀ x ∈ external, (start.host x).isSome = true) (bound : Nat)
    (fault : Fault) : run b bound start ≠ .error (.stuck fault) := by
  have hshows : Shows c ⟨[], start⟩ := by
    refine ⟨hvars.symm, fun x hx => hhost x ?_⟩
    rwa [hexternal] at hx
  have hsafe := (SafeWithin.of_fits hm bound).block
    (.root hexternal hassignable hstackForms hfunctions) hshows hv hd
  unfold run
  unfold Safe at hsafe
  intro hstuck
  split at hsafe
  . next heq =>
    rw [heq] at hstuck
    cases hstuck
  . exact hsafe
  . next stop hne heq =>
    rw [heq] at hstuck
    cases hstuck
    exact hne fault rfl

end Safety
end Splice
