import Splice.Proofs.Analysis.Scopes
import Splice.Proofs.Tree.Bindings

/-!
This module contains the proof that the analysis counts each name that an accepted program binds
once.
-/

namespace Splice

namespace Report

def Counts (r : Report) (n : Nat) : Prop :=
  r.Clean → r.declarations = n

theorem counts_empty : empty.Counts 0 :=
  fun _ => rfl

theorem counts_ofDiagnostic {d : Diagnostic} {n : Nat} : (ofDiagnostic d).Counts n :=
  fun h => (not_clean_ofDiagnostic h).elim

theorem counts_onlyIf {condition : Bool} {f : AnalysisFault} {span : Span} :
    (onlyIf condition (fault f span)).Counts 0 := by
  cases condition with
  | false => exact counts_empty
  | true => exact counts_ofDiagnostic

theorem Counts.append {r s : Report} {m n : Nat} (hr : r.Counts m) (hs : s.Counts n) :
    (r ++ s).Counts (m + n) := by
  intro h
  obtain ⟨hcleanr, hcleans⟩ := clean_append.1 h
  exact congrArg₂ (· + ·) (hr hcleanr) (hs hcleans)

theorem Counts.behind {r s : Report} {n : Nat} (hr : r.Counts 0) (hs : s.Counts n) :
    (r ++ s).Counts n := by
  rw [← Nat.zero_add n]
  exact hr.append hs

end Report

open Report

namespace Env

/-! ## Uses -/

theorem counts_literal (l : Literal) : (literal l).Counts 0 := by
  unfold literal
  split
  . split
    . exact counts_onlyIf
    . exact counts_ofDiagnostic
  . exact counts_onlyIf
  . exact counts_empty

theorem counts_value (env : Env) (i : Identifier) : (env.value i).2.Counts 0 := by
  unfold value
  split
  . exact counts_empty
  all_goals exact counts_ofDiagnostic

theorem counts_target (env : Env) (i : Identifier) : (env.target i).Counts 0 := by
  unfold target
  split
  . exact counts_empty
  all_goals exact counts_ofDiagnostic

theorem counts_targets (env : Env) (is : List Identifier) : (env.targets is).Counts 0 := by
  induction is with
  | nil => exact counts_empty
  | cons i is ih => exact (env.counts_target i).append ih

theorem counts_callee (env : Env) (span : Span) (i : Identifier) (arguments : Nat) :
    (env.callee span i arguments).2.Counts 0 := by
  unfold callee
  split
  . exact counts_onlyIf
  all_goals exact counts_ofDiagnostic

theorem counts_instruction (span : Span) (name : String) (arguments : Nat) :
    (instruction span name arguments).2.Counts 0 := by
  unfold instruction
  split
  . exact counts_onlyIf
  . exact counts_ofDiagnostic

theorem counts_valueCount (span : Span) (expected : Nat) (found? : Option Nat) :
    (valueCount span expected found?).Counts 0 := by
  cases found? with
  | none => exact counts_empty
  | some found => exact counts_onlyIf

mutual

theorem counts_expr (env : Env) : (e : Expr) → (env.expr e).2.Counts 0
  | .literal l => counts_literal l
  | .identifier i => env.counts_value i
  | .call span i arguments =>
    (counts_arguments env arguments).append (env.counts_callee span i arguments.length)
  | .instruction span name arguments =>
    (counts_arguments env arguments).append (counts_instruction span name arguments.length)

theorem counts_arguments (env : Env) : (es : List Expr) → (env.arguments es).Counts 0
  | [] => counts_empty
  | e :: es =>
    ((counts_expr env e).append (counts_valueCount _ _ _)).append (counts_arguments env es)

end

theorem counts_expect (env : Env) (e : Expr) (expected : Nat) :
    (env.expect e expected).Counts 0 :=
  (env.counts_expr e).append (counts_valueCount _ _ _)

theorem counts_unused (env : Env) (e : Expr) : (env.unused e).Counts 0 := by
  unfold unused
  dsimp only
  split
  . exact (env.counts_expr e).append counts_onlyIf
  . exact env.counts_expr e

theorem counts_initialiser (env : Env) (expected : Nat) (value : Option Expr) :
    (env.initialiser expected value).Counts 0 := by
  cases value with
  | none => exact counts_empty
  | some e => exact env.counts_expect e expected

theorem counts_stackForm (env : Env) (form : StackForm) : (env.stackForm form).Counts 0 := by
  unfold stackForm
  split
  . cases form with
    | label _ _ => exact counts_empty
    | assignment _ i => exact env.counts_target i
    | instruction _ _ => exact counts_onlyIf
  . exact counts_ofDiagnostic

theorem counts_caseHead (seen : SeenCases) (value : Option Literal) :
    (caseHead seen value).2.Counts 0 := by
  cases value with
  | none => exact counts_empty
  | some l =>
    have hvalue : (caseValue seen l).2.Counts 0 := by
      unfold caseValue
      split
      . exact counts_empty
      . split
        . exact counts_empty
        . exact counts_ofDiagnostic
    exact (counts_literal l).append hvalue

/-! ## Declarations -/

theorem counts_declare (env : Env) (x : String) (b : Binding) :
    (env.declare x b).2.Counts 1 := by
  unfold declare
  split
  . exact counts_ofDiagnostic
  . split
    . exact counts_ofDiagnostic
    . exact fun _ => rfl

theorem counts_declareAll (env : Env) (xs : List Binder) :
    (env.declareAll xs).2.Counts xs.length := by
  induction xs generalizing env with
  | nil => exact counts_empty
  | cons x xs ih =>
    rw [List.length_cons, Nat.add_comm]
    exact (env.counts_declare _ _).append (ih _)

theorem counts_declareTogether (env : Env) (seen : List String) (xs : List Binder) :
    (env.declareTogether seen xs).2.Counts xs.length := by
  induction xs generalizing env seen with
  | nil => exact counts_empty
  | cons x xs ih =>
    rw [List.length_cons, Nat.add_comm]
    unfold declareTogether
    split
    . exact counts_ofDiagnostic.append (ih _ _)
    . exact (env.counts_declare _ _).append (ih _ _)

theorem counts_hoist (env : Env) (ss : List Stmt) :
    (env.hoist ss).2.Counts (ss.flatMap Stmt.announced).length := by
  induction ss generalizing env with
  | nil => exact counts_empty
  | cons s ss ih =>
    rw [List.flatMap_cons, List.length_append]
    cases s with
    | function f =>
      obtain ⟨f, body⟩ := f
      exact (env.counts_declare _ _).append (ih _)
    | stack form =>
      cases form with
      | label span name => exact (env.counts_declare _ _).append (ih _)
      | _ => exact counts_empty.append (ih _)
    | _ => exact counts_empty.append (ih _)

/-! ## Statements -/

mutual

theorem counts_stmt (env : Env) : (s : Stmt) → (env.stmt s).2.Counts s.bindings.length
  | .expression e => env.counts_unused e
  | .declaration _ vars value => by
    unfold Stmt.bindings
    rw [List.length_map]
    exact (env.counts_initialiser _ value).behind (env.counts_declareTogether [] vars)
  | .assignment _ is value => (env.counts_expect value _).append (env.counts_targets is)
  | .conditional _ condition body => (env.counts_expect condition 1).behind (counts_block env body)
  | .switch span subject arms =>
    ((env.counts_expect subject 1).behind (counts_cases env [] arms)).append counts_onlyIf
  | .loop _ ⟨_, pre⟩ condition post body => by
    unfold stmt Stmt.bindings
    simp only [List.length_append, ← Nat.add_assoc]
    refine .append ?_ (counts_block _ body)
    refine .append ?_ (counts_block _ post)
    refine .append (n := 0) ?_ (counts_expect _ condition 1)
    exact .append (counts_hoist _ pre) (counts_stmts _ pre)
  | .function ⟨f, body⟩ => by
    unfold Stmt.bindings
    rw [← List.append_assoc, ← List.map_append, List.length_append, List.length_map]
    exact (counts_declareAll _ _).append (counts_block _ body)
  | .block b => counts_block env b
  | .stack form => env.counts_stackForm form

theorem counts_stmts (env : Env) :
    (ss : List Stmt) → (env.stmts ss).2.Counts (Stmt.allBindings ss).length
  | [] => counts_empty
  | s :: ss => by
    unfold Stmt.allBindings
    rw [List.length_append]
    exact (counts_stmt env s).append (counts_stmts _ ss)

theorem counts_block (env : Env) : (b : Block) → (env.block b).Counts b.bindings.length
  | ⟨_, ss⟩ => by
    unfold Block.bindings
    rw [List.length_append]
    exact (counts_hoist _ ss).append (counts_stmts _ ss)

theorem counts_cases (env : Env) (seen : SeenCases) :
    (cs : List Case) → (env.cases seen cs).Counts (Case.allBindings cs).length
  | [] => counts_empty
  | ⟨_, value, body⟩ :: cs => by
    unfold Case.allBindings
    rw [List.length_append]
    exact ((counts_caseHead seen value).behind (counts_block env body)).append
      (counts_cases env _ cs)

end

end Env
end Splice
