import Splice.Proofs.Inline.Occurrences

/-!
This module contains the number of calls that the pass that inlines replaces, and the proof that it
leaves everything as it is where there is none to replace.
-/

namespace Splice
namespace Inlining

variable {α β : Type}

def Setting.expands (s : Setting) (o : Occurrence) : Bool := (s.expansion? o).isSome

/-! ## Numbers -/

def Counts (n : Nat) (x : Pass α) : Prop :=
  ∀ st a st', x st = .ok a st' → st'.inlined.length = st.inlined.length + n

namespace Counts

variable {n k : Nat} {x : Pass α} {f : α → Pass β}

theorem pure (a : α) : Counts 0 (Pure.pure a : Pass α) := by
  intro st a' st' h
  rw [pure_eq_ok] at h
  rw [h.2, Nat.add_zero]

theorem bind (hx : Counts n x) (hf : ∀ a, Counts k (f a)) : Counts (n + k) (x >>= f) := by
  intro st b st' h
  rw [bind_eq_ok] at h
  obtain ⟨a, mid, ha, hb⟩ := h
  rw [hf a mid b st' hb, hx st a mid ha, Nat.add_assoc]

theorem after (hx : Counts 0 x) (hf : ∀ a, Counts k (f a)) : Counts k (x >>= f) := by
  have h := hx.bind hf
  rwa [Nat.zero_add] at h

theorem before (hx : Counts n x) (hf : ∀ a, Counts 0 (f a)) : Counts n (x >>= f) :=
  hx.bind hf

theorem throw (e : Failure) : Counts n (MonadExcept.throw e : Pass α) :=
  fun _ _ _ h => (throw_ne_ok h).elim

end Counts

theorem fresh_counts (label : String) : Counts 0 (fresh label) := by
  intro st x st' h
  unfold fresh at h
  rw [modifyGet_eq_ok] at h
  rw [← h.2, Nat.add_zero]

theorem slots_count (callee : String) (span : Span) (xs : List Binder) :
    Counts 0 (slots callee span xs) := by
  induction xs with
  | nil => exact .pure _
  | cons x xs ih => exact (fresh_counts _).after fun _ => ih.after fun _ => .pure _

theorem checkReturns_counts (f : Function) (expected : Nat) (span : Span) :
    Counts 0 (checkReturns f expected span) := by
  unfold checkReturns
  split
  . exact .pure _
  . exact .throw _

theorem checkArguments_counts (f : Function) (found : Nat) (span : Span) :
    Counts 0 (checkArguments f found span) := by
  unfold checkArguments
  split
  . exact .pure _
  . exact .throw _

theorem bindArguments_counts (callee : String) (span : Span) (pairs : List (Binder × Staged)) :
    Counts 0 (bindArguments callee span pairs) := by
  induction pairs with
  | nil => exact .pure _
  | cons pair rest ih => exact ih.after fun _ => (fresh_counts _).after fun _ => .pure _

theorem hoistArguments_counts (dialect : Dialect) (callee : String) (earlier : Bool)
    (rs : List Staged) : Counts 0 (hoistArguments dialect callee earlier rs) := by
  induction rs generalizing earlier with
  | nil => exact .pure _
  | cons r rs ih =>
    have hhoisted : Counts 0
        (modify fun s => { s with hoisted := s.hoisted + 1 } : Pass PUnit) := by
      intro st a st' h
      rw [modify_eq_ok] at h
      rw [← h]
      rfl
    refine (ih _).after fun _ => ?_
    dsimp only
    split
    . exact (fresh_counts _).after fun _ => hhoisted.after fun _ => .pure _
    . exact .pure _

theorem instantiate_counts (f : Function) (replacements : List (String × String))
    (targets : List String) : Counts 0 (instantiate f replacements targets) := by
  intro st body st' h
  unfold instantiate at h
  dsimp only at h
  split at h
  . injection h with _ h
    rw [← h, Nat.add_zero]
  . contradiction

theorem expandCall_counts {n : Nat} {staged : Pass (List Staged)} (h : Counts n staged)
    (f : Function) (span : Span) (count : Nat) (targets : List String) :
    Counts (n + 1) (expandCall f span count staged targets) := by
  have hinlined : Counts 1 (modify fun s =>
      { s with inlined := s.inlined ++ [(f.name, span.start.line)] } : Pass PUnit) := by
    intro st a st' h
    rw [modify_eq_ok] at h
    rw [← h]
    exact List.length_append
  refine (checkArguments_counts f count span).after fun _ => h.bind fun _ => ?_
  refine (bindArguments_counts f.name span _).after fun _ => ?_
  refine (instantiate_counts f _ targets).after fun _ => ?_
  exact hinlined.before fun _ => .pure _

theorem Setting.countP_call (s : Setting) (callee : String) (os : List Occurrence) :
    (⟨.call callee, [], false⟩ :: os).countP s.expands =
      os.countP s.expands + if (s.target? callee).isSome then 1 else 0 :=
  List.countP_cons

mutual

theorem expr_counts (s : Setting) :
    (e : Expr) → Counts (e.occurrences.countP s.expands) (expr s e)
  | .literal _ => .pure _
  | .identifier _ => .pure _
  | .instruction _ name arguments =>
    (exprs_count s arguments).before fun rs =>
      (hoistArguments_counts s.dialect name false rs).after fun _ => .pure _
  | .call span callee arguments => by
    have harguments := exprs_count s arguments
    unfold expr
    rw [Expr.occurrences, s.countP_call]
    cases s.target? callee.name with
    | none =>
      exact harguments.before fun rs =>
        (hoistArguments_counts s.dialect callee.name false rs).after fun _ => .pure _
    | some f =>
      refine (checkReturns_counts f 1 span).after fun _ => ?_
      refine (slots_count f.name span f.returns).after fun xs => ?_
      refine (expandCall_counts harguments f span _ _).before fun _ => ?_
      cases xs <;> exact .pure _

theorem exprs_count (s : Setting) :
    (es : List Expr) → Counts ((Expr.allOccurrences es).countP s.expands) (exprs s es)
  | [] => .pure _
  | e :: es => by
    -- The last argument is rewritten first, though it occurs last.
    rw [Expr.allOccurrences, List.countP_append, Nat.add_comm]
    exact (exprs_count s es).bind fun _ => (expr_counts s e).before fun _ => .pure _

end

section

variable (s : Setting)

theorem expand_counts {e : Expr} {t : Target} (hcall : s.call? e = some t)
    (targets : List String) :
    Counts (e.occurrences.countP s.expands) (expand s t targets) := by
  obtain ⟨rfl, htarget⟩ := call?_eq_some hcall
  rw [Expr.occurrences, s.countP_call, htarget]
  exact expandCall_counts (exprs_count s t.arguments) t.f t.span _ targets

theorem expressionStmt_counts (e : Expr) :
    Counts (e.occurrences.countP s.expands) (expressionStmt s e) := by
  unfold expressionStmt
  cases hcall : s.call? e with
  | none => exact (expr_counts s e).before fun _ => .pure _
  | some t =>
    refine (slots_count t.f.name t.span t.f.returns).after fun xs => ?_
    exact (expand_counts s hcall _).before fun _ => .pure _

theorem declarationStmt_counts (span : Span) (vars : List Binder) (value : Expr) :
    Counts (value.occurrences.countP s.expands) (declarationStmt s span vars value) := by
  unfold declarationStmt
  cases hcall : s.call? value with
  | none => exact (expr_counts s value).before fun _ => .pure _
  | some t =>
    refine (checkReturns_counts t.f vars.length t.span).after fun _ => ?_
    exact (expand_counts s hcall _).before fun _ => .pure _

theorem assignmentStmt_counts (span : Span) (targets : List Identifier) (value : Expr) :
    Counts (value.occurrences.countP s.expands) (assignmentStmt s span targets value) := by
  unfold assignmentStmt
  cases hcall : s.call? value with
  | none => exact (expr_counts s value).before fun _ => .pure _
  | some t =>
    refine (checkReturns_counts t.f targets.length t.span).after fun _ => ?_
    refine (slots_count t.f.name t.span t.f.returns).after fun xs => ?_
    refine (expand_counts s hcall _).before fun _ => ?_
    dsimp only
    split <;> exact .pure _

theorem Setting.countP_ofCondition (os : List Occurrence) :
    (os.map Occurrence.ofCondition).countP s.expands = 0 := by
  rw [List.countP_map, List.countP_eq_zero]
  intro o _
  unfold Function.comp Setting.expands
  rw [s.expansion?_ofCondition]
  exact Bool.false_ne_true

theorem Setting.countP_inside (os : List Occurrence) (name : String) :
    (os.map (Occurrence.inside · [name])).countP s.expands =
      os.countP (s.within name).expands := by
  rw [List.countP_map]
  apply List.countP_congr
  intro o _
  unfold Function.comp Setting.expands
  rw [s.expansion?_inside]

end

mutual

theorem stmt_counts (s : Setting) :
    (x : Stmt) → Counts (x.occurrences.countP s.expands) (stmt s x)
  | .expression e => expressionStmt_counts s e
  | .declaration _ _ none => .pure _
  | .declaration span vars (some value) => declarationStmt_counts s span vars value
  | .assignment span targets value => assignmentStmt_counts s span targets value
  | .conditional _ condition body => by
    rw [Stmt.occurrences, List.countP_append]
    exact (expr_counts s condition).bind fun _ => (block_counts s body).before fun _ => .pure _
  | .switch _ subject arms => by
    rw [Stmt.occurrences, List.countP_append]
    exact (expr_counts s subject).bind fun _ => (cases_count s arms).before fun _ => .pure _
  | .loop _ ⟨preSpan, pre⟩ condition post body => by
    have hpre : Counts ((Block.mk preSpan pre).occurrences.countP s.expands)
        (block s ⟨preSpan, pre⟩) := (stmts_count s pre).before fun _ => .pure _
    -- The condition is left as it is, and the calls in it do not count.
    rw [Stmt.occurrences, List.countP_append, List.countP_append, List.countP_append,
      s.countP_ofCondition, Nat.add_zero, Nat.add_assoc]
    refine hpre.bind fun _ => (block_counts s post).bind fun _ => ?_
    exact (block_counts s body).before fun _ => .pure _
  | .function ⟨f, body⟩ => by
    rw [Stmt.occurrences, List.countP_cons, s.countP_inside]
    exact (block_counts (s.within f.name) body).before fun _ => .pure _
  | .block b => (block_counts s b).before fun _ => .pure _
  | .stack _ => .throw _

theorem stmts_count (s : Setting) :
    (xs : List Stmt) → Counts ((Stmt.allOccurrences xs).countP s.expands) (stmts s xs)
  | [] => .pure _
  | x :: xs => by
    rw [Stmt.allOccurrences, List.countP_append]
    exact (stmt_counts s x).bind fun _ => (stmts_count s xs).before fun _ => .pure _

theorem block_counts (s : Setting) :
    (b : Block) → Counts (b.occurrences.countP s.expands) (block s b)
  | ⟨_, xs⟩ => (stmts_count s xs).before fun _ => .pure _

theorem cases_count (s : Setting) :
    (cs : List Case) → Counts ((Case.allOccurrences cs).countP s.expands) (cases s cs)
  | [] => .pure _
  | ⟨_, _, body⟩ :: cs => by
    rw [Case.allOccurrences, List.countP_append]
    exact (block_counts s body).bind fun _ => (cases_count s cs).before fun _ => .pure _

end

/-! ## Nothing to replace -/

theorem hoistArguments_of_bare (dialect : Dialect) (callee : String) (es : List Expr) :
    hoistArguments dialect callee false (es.map (Staged.mk [])) = pure ([], es) := by
  induction es with
  | nil => rfl
  | cons e es ih =>
    rw [List.map_cons, hoistArguments]
    simp only [List.isEmpty_nil, Bool.not_true, Bool.or_false, ih, pure_bind, Bool.false_and,
      Bool.false_eq_true, if_false, List.append_nil]

mutual

theorem expr_eq_pure {s : Setting} : (e : Expr) → e.occurrences.countP s.expands = 0 →
    expr s e = pure ⟨[], e⟩
  | .literal _, _ => rfl
  | .identifier _, _ => rfl
  | .instruction _ name arguments, h => by
    have harguments : (Expr.allOccurrences arguments).countP s.expands = 0 := h
    rw [expr, exprs_eq_pure arguments harguments, pure_bind, hoistArguments_of_bare, pure_bind]
  | .call _ callee arguments, h => by
    rw [Expr.occurrences, s.countP_call, Nat.add_eq_zero_iff] at h
    obtain ⟨harguments, hnone⟩ := h
    cases htarget : s.target? callee.name with
    | some f =>
      rw [htarget] at hnone
      contradiction
    | none =>
      rw [expr, htarget]
      dsimp only
      rw [exprs_eq_pure arguments harguments, pure_bind, hoistArguments_of_bare, pure_bind]

theorem exprs_eq_pure {s : Setting} : (es : List Expr) →
    (Expr.allOccurrences es).countP s.expands = 0 → exprs s es = pure (es.map (Staged.mk []))
  | [], _ => rfl
  | e :: es, h => by
    rw [Expr.allOccurrences, List.countP_append, Nat.add_eq_zero_iff] at h
    rw [exprs, exprs_eq_pure es h.2, pure_bind, expr_eq_pure e h.1, pure_bind]
    rfl

end

theorem call?_eq_none {s : Setting} {e : Expr} (h : e.occurrences.countP s.expands = 0) :
    s.call? e = none := by
  cases hcall : s.call? e with
  | none => rfl
  | some t =>
    obtain ⟨rfl, htarget⟩ := call?_eq_some hcall
    rw [Expr.occurrences, s.countP_call, htarget, Nat.add_eq_zero_iff] at h
    exact (Nat.one_ne_zero h.2).elim

mutual

theorem stmt_eq_pure {s : Setting} : (x : Stmt) → x.stackForms = [] →
    x.occurrences.countP s.expands = 0 → stmt s x = pure ([], x)
  | .expression e, _, h => by
    have he : e.occurrences.countP s.expands = 0 := h
    rw [stmt, expressionStmt, call?_eq_none he]
    dsimp only
    rw [expr_eq_pure e he, pure_bind]
  | .declaration _ _ none, _, _ => rfl
  | .declaration _ _ (some value), _, h => by
    have hvalue : value.occurrences.countP s.expands = 0 := h
    rw [stmt, declarationStmt, call?_eq_none hvalue]
    dsimp only
    rw [expr_eq_pure value hvalue, pure_bind]
  | .assignment _ _ value, _, h => by
    have hvalue : value.occurrences.countP s.expands = 0 := h
    rw [stmt, assignmentStmt, call?_eq_none hvalue]
    dsimp only
    rw [expr_eq_pure value hvalue, pure_bind]
  | .conditional _ condition body, hforms, h => by
    rw [Stmt.occurrences, List.countP_append, Nat.add_eq_zero_iff] at h
    rw [stmt, expr_eq_pure condition h.1, pure_bind, block_eq_pure body hforms h.2, pure_bind]
  | .switch _ subject arms, hforms, h => by
    rw [Stmt.occurrences, List.countP_append, Nat.add_eq_zero_iff] at h
    rw [stmt, expr_eq_pure subject h.1, pure_bind, cases_eq_pure arms hforms h.2, pure_bind]
  | .loop _ pre condition post body, hforms, h => by
    rw [Stmt.occurrences, List.countP_append, List.countP_append, List.countP_append,
      s.countP_ofCondition, Nat.add_zero, Nat.add_eq_zero_iff, Nat.add_eq_zero_iff] at h
    rw [Stmt.stackForms, List.append_eq_nil_iff, List.append_eq_nil_iff] at hforms
    rw [stmt, block_eq_pure pre hforms.1.1 h.1.1, pure_bind, block_eq_pure post hforms.1.2 h.1.2,
      pure_bind, block_eq_pure body hforms.2 h.2, pure_bind]
  | .function ⟨f, body⟩, hforms, h => by
    rw [Stmt.occurrences, List.countP_cons, s.countP_inside, Nat.add_eq_zero_iff] at h
    rw [stmt, block_eq_pure body hforms h.1, pure_bind]
  | .block b, hforms, h => by
    rw [stmt, block_eq_pure b hforms h, pure_bind]

theorem stmts_eq_pure {s : Setting} : (xs : List Stmt) → Stmt.allStackForms xs = [] →
    (Stmt.allOccurrences xs).countP s.expands = 0 → stmts s xs = pure xs
  | [], _, _ => rfl
  | x :: xs, hforms, h => by
    rw [Stmt.allOccurrences, List.countP_append, Nat.add_eq_zero_iff] at h
    obtain ⟨hx, hxs⟩ := List.append_eq_nil_iff.1 hforms
    rw [stmts, stmt_eq_pure x hx h.1, pure_bind]
    dsimp only
    rw [stmts_eq_pure xs hxs h.2, pure_bind]
    rfl

theorem block_eq_pure {s : Setting} : (b : Block) → b.stackForms = [] →
    b.occurrences.countP s.expands = 0 → block s b = pure b
  | ⟨_, xs⟩, hforms, h => by
    rw [block, stmts_eq_pure xs hforms h, pure_bind]

theorem cases_eq_pure {s : Setting} : (cs : List Case) → Case.allStackForms cs = [] →
    (Case.allOccurrences cs).countP s.expands = 0 → cases s cs = pure cs
  | [], _, _ => rfl
  | ⟨_, _, body⟩ :: cs, hforms, h => by
    rw [Case.allOccurrences, List.countP_append, Nat.add_eq_zero_iff] at h
    obtain ⟨hbody, hcs⟩ := List.append_eq_nil_iff.1 hforms
    rw [cases, block_eq_pure body hbody h.1, pure_bind, cases_eq_pure cs hcs h.2, pure_bind]

end

end Inlining
end Splice
