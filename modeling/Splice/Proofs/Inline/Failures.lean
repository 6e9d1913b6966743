import Splice.Proofs.Analysis.Occurrences
import Splice.Proofs.Inline.Occurrences
import Splice.Proofs.Pass.Failures

/-!
This module contains the proof that the pass that inlines fails exactly where it would have to copy
a body with functions in it.
-/

namespace Splice
namespace Inlining

def Setting.refusals (s : Setting) (o : Occurrence) : List Failure :=
  match s.expansion? o with
  | some f => Function.refusals f.body.functions
  | none => []

theorem Setting.refusals_call (s : Setting) (callee : String) :
    s.refusals ⟨.call callee, [], false⟩ =
      match s.target? callee with
      | some f => Function.refusals f.body.functions
      | none => [] := rfl

theorem Place.stackForms_of_valid {p : Block} {c : Context} (hp : Place p c) {xs : List Binder}
    {body : Block} (hbody : body.Valid (c.enterFunction xs)) : body.stackForms = [] := by
  apply Block.Valid.stackForms _ body hbody
  unfold Context.enterFunction
  rw [Context.declare_eq]
  exact hp.stackForms

/-! ## Steps -/

theorem fresh_failsWith (label : String) : FailsWith [] (fresh label) := fun _ => rfl

theorem slots_failWith (callee : String) (span : Span) (xs : List Binder) :
    FailsWith [] (slots callee span xs) := by
  induction xs with
  | nil => exact .pure _
  | cons x xs ih => exact (fresh_failsWith _).after fun _ => ih.after fun _ => .pure _

theorem checkReturns_failsWith {f : Function} {expected : Nat} (h : f.returns.length = expected)
    (span : Span) : FailsWith [] (checkReturns f expected span) := by
  unfold checkReturns
  rw [if_pos h]
  exact .pure _

theorem checkArguments_failsWith {f : Function} {found : Nat} (h : f.parameters.length = found)
    (span : Span) : FailsWith [] (checkArguments f found span) := by
  unfold checkArguments
  rw [if_pos h]
  exact .pure _

theorem bindArguments_failsWith (callee : String) (span : Span) (pairs : List (Binder × Staged)) :
    FailsWith [] (bindArguments callee span pairs) := by
  induction pairs with
  | nil => exact .pure _
  | cons pair rest ih =>
    exact ih.after fun _ => (fresh_failsWith _).after fun _ => .pure _

theorem hoistArguments_failsWith (dialect : Dialect) (callee : String) (earlier : Bool)
    (rs : List Staged) : FailsWith [] (hoistArguments dialect callee earlier rs) := by
  induction rs generalizing earlier with
  | nil => exact .pure _
  | cons r rs ih =>
    refine (ih _).after fun _ => ?_
    dsimp only
    split
    . refine (fresh_failsWith _).after fun _ => ?_
      exact FailsWith.after (fun _ => rfl) fun _ => .pure _
    . exact .pure _

theorem instantiate_failsWith {f : Function} (hforms : f.body.stackForms = [])
    (replacements : List (String × String)) (targets : List String) :
    FailsWith (Function.refusals f.body.functions) (instantiate f replacements targets) := by
  intro st
  have h := copyBody_failsWith (f.name ++ "_")
    (((f.returns.map Binder.name).zip targets).reverse ++ replacements) hforms st.supply
  unfold Meets instantiate at *
  split at h
  . next hcopy =>
    simp only [hcopy]
    exact h
  . next hcopy =>
    simp only [hcopy]
    exact h

theorem expandCall_failsWith {s : Setting} {c : Context} (hp : Place s.program c) {span : Span}
    {callee : Identifier} {arguments : List Expr} {n : Nat}
    (hy : (Expr.call span callee arguments).Yields c n) {f : Function}
    (hf : s.target? callee.name = some f)
    (hstaged : FailsWith ((Expr.allOccurrences arguments).flatMap s.refusals) (exprs s arguments))
    (targets : List String) :
    FailsWith ((Expr.call span callee arguments).occurrences.flatMap s.refusals)
      (expandCall f span arguments.length (exprs s arguments) targets) := by
  obtain ⟨_, _, hparameters, _, hbody⟩ := hp.target hy.1 hf
  have hforms : f.body.stackForms = [] := hp.stackForms_of_valid hbody
  have hall : FailsWith ((Expr.allOccurrences arguments).flatMap s.refusals ++
      Function.refusals f.body.functions)
      (expandCall f span arguments.length (exprs s arguments) targets) := by
    refine (checkArguments_failsWith hparameters span).after fun _ => hstaged.bind fun _ => ?_
    refine (bindArguments_failsWith f.name span _).after fun _ => ?_
    refine (instantiate_failsWith hforms _ _).before fun _ => ?_
    exact FailsWith.after (fun _ => rfl) fun _ => .pure _
  refine hall.congr fun failure => ?_
  rw [Expr.occurrences, List.flatMap_cons, s.refusals_call, hf, List.mem_append, List.mem_append,
    or_comm]

/-! ## Expressions -/

mutual

theorem expr_failsWith {s : Setting} {c : Context} (hp : Place s.program c) : (e : Expr) →
    {n : Nat} → e.Yields c n → n = 1 ∨ s.call? e = none →
    FailsWith (e.occurrences.flatMap s.refusals) (expr s e)
  | .literal _, _, _, _ => .pure _
  | .identifier _, _, _, _ => .pure _
  | .instruction _ name arguments, _, hy, _ =>
    (exprs_failWith hp arguments hy.2).before fun rs =>
      (hoistArguments_failsWith s.dialect name false rs).after fun _ => .pure _
  | .call span callee arguments, _, hy, hn => by
    have harguments := exprs_failWith hp arguments hy.2
    unfold expr
    cases hf : s.target? callee.name with
    | none =>
      rw [Expr.occurrences, List.flatMap_cons, s.refusals_call, hf]
      exact harguments.before fun rs =>
        (hoistArguments_failsWith s.dialect callee.name false rs).after fun _ => .pure _
    | some f =>
      have hone : f.returns.length = 1 := by
        rcases hn with rfl | hn
        . obtain ⟨_, _, _, hreturns, _⟩ := hp.target hy.1 hf
          exact hreturns
        . simp only [Setting.call?, hf, Option.map_some] at hn
          contradiction
      refine (checkReturns_failsWith hone span).after fun _ => ?_
      refine (slots_failWith f.name span f.returns).after fun xs => ?_
      refine (expandCall_failsWith hp hy hf harguments _).before fun _ => ?_
      cases xs <;> exact .pure _

theorem exprs_failWith {s : Setting} {c : Context} (hp : Place s.program c) :
    (es : List Expr) → Expr.AllSingle c es →
    FailsWith ((Expr.allOccurrences es).flatMap s.refusals) (exprs s es)
  | [], _ => .pure _
  | e :: es, hy => by
    have h : FailsWith ((Expr.allOccurrences es).flatMap s.refusals ++
        e.occurrences.flatMap s.refusals) (exprs s (e :: es)) :=
      (exprs_failWith hp es hy.2).bind fun _ =>
        (expr_failsWith hp e hy.1 (.inl rfl)).before fun _ => .pure _
    refine h.congr fun failure => ?_
    rw [Expr.allOccurrences, List.flatMap_append, List.mem_append, List.mem_append, or_comm]

end

section

variable {s : Setting} {c : Context}

theorem expand_failsWith (hp : Place s.program c) {e : Expr} {n : Nat} (hy : e.Yields c n)
    {t : Target} (hcall : s.call? e = some t) (targets : List String) :
    FailsWith (e.occurrences.flatMap s.refusals) (expand s t targets) := by
  obtain ⟨rfl, htarget⟩ := call?_eq_some hcall
  exact expandCall_failsWith hp hy htarget (exprs_failWith hp t.arguments hy.2) targets

/-! ## Statements -/

theorem expressionStmt_failsWith (hp : Place s.program c) {e : Expr} (hy : e.Yields c 0) :
    FailsWith (e.occurrences.flatMap s.refusals) (expressionStmt s e) := by
  unfold expressionStmt
  cases hcall : s.call? e with
  | none => exact (expr_failsWith hp e hy (.inr hcall)).before fun _ => .pure _
  | some t =>
    refine (slots_failWith t.f.name t.span t.f.returns).after fun xs => ?_
    exact (expand_failsWith hp hy hcall _).before fun _ => .pure _

theorem declarationStmt_failsWith (hp : Place s.program c) (span : Span) {vars : List Binder}
    {value : Expr} (hy : value.Yields c vars.length) :
    FailsWith (value.occurrences.flatMap s.refusals) (declarationStmt s span vars value) := by
  unfold declarationStmt
  cases hcall : s.call? value with
  | none => exact (expr_failsWith hp value hy (.inr hcall)).before fun _ => .pure _
  | some t =>
    obtain ⟨_, hreturns, _⟩ := call_target hp hy hcall
    refine (checkReturns_failsWith hreturns t.span).after fun _ => ?_
    exact (expand_failsWith hp hy hcall _).before fun _ => .pure _

theorem assignmentStmt_failsWith (hp : Place s.program c) (span : Span) {targets : List Identifier}
    {value : Expr} (hy : value.Yields c targets.length) :
    FailsWith (value.occurrences.flatMap s.refusals) (assignmentStmt s span targets value) := by
  unfold assignmentStmt
  cases hcall : s.call? value with
  | none => exact (expr_failsWith hp value hy (.inr hcall)).before fun _ => .pure _
  | some t =>
    obtain ⟨_, hreturns, _⟩ := call_target hp hy hcall
    refine (checkReturns_failsWith hreturns t.span).after fun _ => ?_
    refine (slots_failWith t.f.name t.span t.f.returns).after fun xs => ?_
    refine (expand_failsWith hp hy hcall _).before fun _ => ?_
    dsimp only
    split <;> exact .pure _

end

mutual

theorem stmt_failsWith {s : Setting} {c : Context} (hp : Place s.program c) : (x : Stmt) →
    x.Valid c → x.boundNames ⊆ s.program.boundNames → x.functions ⊆ s.program.functions →
    FailsWith (x.occurrences.flatMap s.refusals) (stmt s x)
  | .expression _, hv, _, _ => expressionStmt_failsWith hp hv
  | .declaration _ _ none, _, _, _ => .pure _
  | .declaration span _ (some _), hv, _, _ => declarationStmt_failsWith hp span hv
  | .assignment span _ _, hv, _, _ => assignmentStmt_failsWith hp span hv.1
  | .conditional _ condition body, hv, hn, hf => by
    rw [Stmt.occurrences, List.flatMap_append]
    refine (expr_failsWith hp condition hv.1 (.inl rfl)).bind fun _ => ?_
    exact (block_failsWith hp body hv.2 hn hf).before fun _ => .pure _
  | .switch _ subject arms, hv, hn, hf => by
    rw [Stmt.occurrences, List.flatMap_append]
    refine (expr_failsWith hp subject hv.1 (.inl rfl)).bind fun _ => ?_
    exact (cases_failWith hp arms hv.2.1 hn hf).before fun _ => .pure _
  | .loop _ ⟨preSpan, pre⟩ condition post body, hv, hn, hf => by
    change Stmt.allBoundNames pre ++ post.boundNames ++ body.boundNames ⊆ _ at hn
    change Stmt.allFunctions pre ++ post.functions ++ body.functions ⊆ _ at hf
    rw [List.append_subset, List.append_subset] at hn hf
    have hp₁ := hp.enter hv.1 hf.1.1
    have hp₂ := hp₁.after hn.1.1
    have hcondition :
        (condition.occurrences.map Occurrence.ofCondition).flatMap s.refusals = [] := by
      rw [List.flatMap_map, List.flatMap_eq_nil_iff]
      intro o _
      unfold Setting.refusals
      rw [s.expansion?_ofCondition]
    rw [Stmt.occurrences, List.flatMap_append, List.flatMap_append, List.flatMap_append, hcondition,
      List.append_nil, List.append_assoc]
    have hpre : FailsWith ((Block.mk preSpan pre).occurrences.flatMap s.refusals)
        (block s ⟨preSpan, pre⟩) :=
      (stmts_failWith hp₁ pre hv.1 hn.1.1 hf.1.1).before fun _ => .pure _
    refine hpre.bind fun _ => ?_
    refine (block_failsWith hp₂ post hv.2.2.1 hn.1.2 hf.1.2).bind fun _ => ?_
    exact (block_failsWith hp₂ body hv.2.2.2 hn.2 hf.2).before fun _ => .pure _
  | .function ⟨f, body⟩, hv, hn, hf => by
    simp only [Stmt.boundNames, ← List.map_append, List.cons_append, List.cons_subset,
      List.append_subset] at hn
    have hin : Place (s.within f.name).program (c.enterFunction (f.parameters ++ f.returns)) :=
      hp.enterFunction hn.2.1
    have hinside : (body.occurrences.map (Occurrence.inside · [f.name])).flatMap s.refusals =
        body.occurrences.flatMap (s.within f.name).refusals := by
      rw [List.flatMap_map]
      apply List.flatMap_congr
      intro o _
      unfold Setting.refusals
      rw [s.expansion?_inside]
    rw [Stmt.occurrences, List.flatMap_cons, hinside]
    exact (block_failsWith hin body hv hn.2.2 (List.cons_subset.1 hf).2).before fun _ => .pure _
  | .block b, hv, hn, hf => (block_failsWith hp b hv hn hf).before fun _ => .pure _
  | .stack _, hv, _, _ => (Bool.false_ne_true (hp.stackForms.symm.trans hv.1)).elim

theorem stmts_failWith {s : Setting} {c : Context} (hp : Place s.program c) : (xs : List Stmt) →
    Stmt.AllValid c xs → Stmt.allBoundNames xs ⊆ s.program.boundNames →
    Stmt.allFunctions xs ⊆ s.program.functions →
    FailsWith ((Stmt.allOccurrences xs).flatMap s.refusals) (stmts s xs)
  | [], _, _, _ => .pure _
  | x :: xs, hv, hn, hf => by
    have hp₁ := hp.next hn
    unfold Stmt.allBoundNames at hn
    unfold Stmt.allFunctions at hf
    rw [List.append_subset] at hn hf
    rw [Stmt.allOccurrences, List.flatMap_append]
    refine (stmt_failsWith hp x hv.1 hn.1 hf.1).bind fun _ => ?_
    exact (stmts_failWith hp₁ xs hv.2 hn.2 hf.2).before fun _ => .pure _

/--
The pass fails at the functions in the bodies that would replace calls of the block, and nowhere
else.
-/
theorem block_failsWith {s : Setting} {c : Context} (hp : Place s.program c) : (b : Block) →
    b.Valid c → b.boundNames ⊆ s.program.boundNames → b.functions ⊆ s.program.functions →
    FailsWith (b.occurrences.flatMap s.refusals) (block s b)
  | ⟨_, xs⟩, hv, hn, hf =>
    (stmts_failWith (hp.enter hv hf) xs hv hn hf).before fun _ => .pure _

theorem cases_failWith {s : Setting} {c : Context} (hp : Place s.program c) : (cs : List Case) →
    Case.AllValid c cs → Case.allBoundNames cs ⊆ s.program.boundNames →
    Case.allFunctions cs ⊆ s.program.functions →
    FailsWith ((Case.allOccurrences cs).flatMap s.refusals) (cases s cs)
  | [], _, _, _ => .pure _
  | ⟨_, _, body⟩ :: cs, hv, hn, hf => by
    unfold Case.allBoundNames at hn
    unfold Case.allFunctions at hf
    rw [List.append_subset] at hn hf
    rw [Case.allOccurrences, List.flatMap_append]
    refine (block_failsWith hp body hv.1 hn.1 hf.1).bind fun _ => ?_
    exact (cases_failWith hp cs hv.2 hn.2 hf.2).before fun _ => .pure _

end

end Inlining
end Splice
