import Splice.Pass.BodyCopy
import Splice.Proofs.Pass.Refusal

/-!
This module contains computations that fail exactly where something stands in their way, and the
proof that the copying of a body is one of them: functions in the body stand in its way.
-/

namespace Splice

variable {σ α β : Type}

/--
If nothing stands in the way then `x` returns, and otherwise it fails because of something that
does.
-/
def FailsWith (obstacles : List Failure) (x : EStateM Failure σ α) : Prop :=
  ∀ s, Meets x s (fun _ _ => obstacles = []) (· ∈ obstacles)

namespace FailsWith

variable {es es' : List Failure} {x : EStateM Failure σ α} {f : α → EStateM Failure σ β}

theorem pure (a : α) : FailsWith [] (Pure.pure a : EStateM Failure σ α) := fun _ => rfl

theorem throw_bind (e : Failure) (es : List Failure) (f : α → EStateM Failure σ β) :
    FailsWith (e :: es) (throw e >>= f) := fun _ => Meets.throw_bind List.mem_cons_self

theorem bind (hx : FailsWith es x) (hf : ∀ a, FailsWith es' (f a)) :
    FailsWith (es ++ es') (x >>= f) := by
  intro s
  have hx' : Meets x s (fun _ _ => es = []) (· ∈ es ++ es') :=
    (hx s).imp (fun _ _ h => h) fun _ he => List.mem_append_left _ he
  apply hx'.bind
  intro a s' hnil
  rw [hnil]
  exact hf a s'

theorem after (hx : FailsWith [] x) (hf : ∀ a, FailsWith es (f a)) : FailsWith es (x >>= f) :=
  hx.bind hf

theorem before (hx : FailsWith es x) (hf : ∀ a, FailsWith [] (f a)) : FailsWith es (x >>= f) := by
  have := hx.bind hf
  rwa [List.append_nil] at this

theorem congr (hx : FailsWith es x) (h : ∀ e, e ∈ es ↔ e ∈ es') : FailsWith es' x := by
  intro s
  refine (hx s).imp ?_ fun e he => (h e).1 he
  rintro _ _ rfl
  exact List.eq_nil_iff_forall_not_mem.2 fun e he => List.not_mem_nil ((h e).2 he)

theorem exists_eq_ok (hx : FailsWith [] x) (s : σ) : ∃ a s', x s = .ok a s' := by
  cases h : x s with
  | ok a s' => exact ⟨a, s', rfl⟩
  | error e s' => exact (List.not_mem_nil ((hx s).error h)).elim

end FailsWith

def Function.refusals (fs : List Function) : List Failure :=
  fs.map fun f => .nestedFunction f.toSignature

namespace BodyCopy

theorem use_failsWith (i : Identifier) : FailsWith [] (use i) := fun _ => rfl

theorem declare_failsWith (label : String) (xs : List Binder) :
    FailsWith [] (declare label xs) := by
  induction xs with
  | nil => exact .pure _
  | cons x xs ih =>
    intro s
    apply Meets.get_bind
    exact (ih.before fun _ => .pure _) _

variable (label : String)

mutual

theorem expr_failsWith : (e : Expr) → FailsWith [] ((traversal label).expr e)
  | .literal _ => .pure _
  | .identifier i => (use_failsWith i).after fun _ => .pure _
  | .call _ callee arguments =>
    (use_failsWith callee).after fun _ => (exprs_failWith arguments).after fun _ => .pure _
  | .instruction _ _ arguments => (exprs_failWith arguments).after fun _ => .pure _

theorem exprs_failWith : (es : List Expr) → FailsWith [] ((traversal label).exprs es)
  | [] => .pure _
  | e :: es => (expr_failsWith e).after fun _ => (exprs_failWith es).after fun _ => .pure _

end

theorem optionalExpr_failsWith : (e? : Option Expr) →
    FailsWith [] ((traversal label).optionalExpr e?)
  | none => .pure _
  | some e => (expr_failsWith label e).after fun _ => .pure _

theorem uses_failWith : (is : List Identifier) → FailsWith [] ((traversal label).uses is)
  | [] => .pure _
  | i :: is => (use_failsWith i).after fun _ => (uses_failWith is).after fun _ => .pure _

theorem refusals_append (fs gs : List Function) :
    Function.refusals (fs ++ gs) = Function.refusals fs ++ Function.refusals gs :=
  List.map_append

mutual

theorem stmt_failsWith : (x : Stmt) → x.stackForms = [] →
    FailsWith (Function.refusals x.functions) ((traversal label).stmt x)
  | .expression e, _ => (expr_failsWith label e).after fun _ => .pure _
  | .declaration _ vars value, _ =>
    (optionalExpr_failsWith label value).after fun _ =>
      (declare_failsWith label vars).after fun _ => .pure _
  | .assignment _ targets value, _ =>
    (uses_failWith label targets).after fun _ => (expr_failsWith label value).after fun _ => .pure _
  | .conditional _ condition body, hforms =>
    (expr_failsWith label condition).after fun _ =>
      (block_failsWith body hforms).before fun _ => .pure _
  | .switch _ subject arms, hforms =>
    (expr_failsWith label subject).after fun _ =>
      (cases_failWith arms hforms).before fun _ => .pure _
  | .loop _ ⟨_, pre⟩ condition post body, hforms => by
    unfold Stmt.stackForms at hforms
    rw [List.append_eq_nil_iff, List.append_eq_nil_iff] at hforms
    change FailsWith
      (Function.refusals (Stmt.allFunctions pre ++ post.functions ++ body.functions)) _
    rw [refusals_append, refusals_append, List.append_assoc]
    apply (FailsWith.pure PUnit.unit).after
    intro _
    apply (stmts_failWith pre hforms.1.1).bind
    intro _
    apply (expr_failsWith label condition).after
    intro _
    apply (block_failsWith post hforms.1.2).bind
    intro _
    exact (block_failsWith body hforms.2).before fun _ => .pure _
  | .function ⟨f, body⟩, _ => FailsWith.throw_bind _ _ _
  | .block b, hforms => (block_failsWith b hforms).before fun _ => .pure _

theorem stmts_failWith : (xs : List Stmt) → Stmt.allStackForms xs = [] →
    FailsWith (Function.refusals (Stmt.allFunctions xs)) ((traversal label).stmts xs)
  | [], _ => .pure _
  | x :: xs, hforms => by
    obtain ⟨hx, hxs⟩ := List.append_eq_nil_iff.1 hforms
    rw [Stmt.allFunctions, refusals_append]
    exact (stmt_failsWith x hx).bind fun _ => (stmts_failWith xs hxs).before fun _ => .pure _

theorem block_failsWith : (b : Block) → b.stackForms = [] →
    FailsWith (Function.refusals b.functions) ((traversal label).block b)
  | ⟨_, xs⟩, hforms => (stmts_failWith xs hforms).before fun _ => .pure _

theorem cases_failWith : (cs : List Case) → Case.allStackForms cs = [] →
    FailsWith (Function.refusals (Case.allFunctions cs)) ((traversal label).cases cs)
  | [], _ => .pure _
  | ⟨_, _, body⟩ :: cs, hforms => by
    obtain ⟨hbody, hcs⟩ := List.append_eq_nil_iff.1 hforms
    rw [Case.allFunctions, refusals_append]
    exact (block_failsWith body hbody).bind fun _ => (cases_failWith cs hcs).before fun _ => .pure _

end

end BodyCopy

theorem copyBody_failsWith (label : String) (replacements : List (String × String)) {body : Block}
    (hforms : body.stackForms = []) :
    FailsWith (Function.refusals body.functions) (copyBody label replacements body) := by
  intro supply
  have h := BodyCopy.block_failsWith label body hforms ⟨supply, replacements⟩
  unfold Meets copyBody at *
  split at h
  . next hrun =>
    simp only [hrun]
    exact h
  . next hrun =>
    simp only [hrun]
    exact h

end Splice
