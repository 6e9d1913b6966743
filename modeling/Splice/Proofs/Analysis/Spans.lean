import Splice.Proofs.Analysis.Rules
import Splice.Proofs.Syntax.Words

/-!
This module contains the proof that the rules do not depend on where the parts of a program were
read.
-/

namespace Splice

variable (c : Context)

namespace Context

theorem declare_bare (xs : List Binder) : c.declare (xs.map Binder.bare) = c.declare xs := by
  induction xs generalizing c with
  | nil => rfl
  | cons x xs ih => exact ih (c.addVariable x.name)

theorem allDeclarable_bare (xs : List Binder) :
    c.AllDeclarable (xs.map Binder.bare) ↔ c.AllDeclarable xs := by
  induction xs generalizing c with
  | nil => rfl
  | cons x xs ih => exact and_congr_right' (ih (c.addVariable x.name))

theorem head_bare (f : Signature) : f.bare.head = f.head := by
  simp [Signature.head, Signature.bare]

theorem announce_bare (s : Stmt) : c.announce s.bare = c.announce s := by
  cases s with
  | function f =>
    obtain ⟨f, body⟩ := f
    exact congrArg c.addFunction (head_bare f)
  | stack form => cases form <;> rfl
  | _ => rfl

theorem canAnnounce_bare (s : Stmt) : c.CanAnnounce s.bare ↔ c.CanAnnounce s := by
  cases s with
  | function f =>
    obtain ⟨f, body⟩ := f
    rfl
  | stack form => cases form <;> rfl
  | _ => rfl

theorem enter_bare (ss : List Stmt) : c.enter (Stmt.allBare ss) = c.enter ss := by
  induction ss generalizing c with
  | nil => rfl
  | cons s ss ih => rw [Stmt.allBare, enter, enter, announce_bare, ih]

theorem canEnter_bare (ss : List Stmt) : c.CanEnter (Stmt.allBare ss) ↔ c.CanEnter ss := by
  induction ss generalizing c with
  | nil => rfl
  | cons s ss ih => rw [Stmt.allBare, CanEnter, CanEnter, canAnnounce_bare, announce_bare, ih]

theorem declare_declared_bare (s : Stmt) : c.declare s.bare.declared = c.declare s.declared := by
  cases s with
  | declaration _ vars _ => exact c.declare_bare vars
  | function f =>
    obtain ⟨f, body⟩ := f
    rfl
  | _ => rfl

theorem after_bare (ss : List Stmt) : c.after (Stmt.allBare ss) = c.after ss := by
  induction ss generalizing c with
  | nil => rfl
  | cons s ss ih => rw [Stmt.allBare, after, after, declare_declared_bare, ih]

theorem enterFunction_bare (f : Signature) :
    c.enterFunction (f.bare.parameters ++ f.bare.returns) =
      c.enterFunction (f.parameters ++ f.returns) := by
  unfold Signature.bare enterFunction
  rw [← List.map_append, declare_bare]

end Context

theorem Report.diagnostics_onlyIf_fault {condition : Bool} {f : AnalysisFault} {span : Span} :
    (Report.onlyIf condition (.fault f span)).diagnostics = [] ↔ condition = false := by
  cases condition <;> simp [onlyIf, fault, ofDiagnostic, empty]

theorem Literal.valid_bare (l : Literal) : l.bare.Valid ↔ l.Valid := by
  obtain ⟨span, kind, text, type⟩ := l
  unfold Valid bare Env.literal
  dsimp only
  cases kind with
  | number =>
    cases Literal.number? text with
    | none => simp [Report.fault, Report.ofDiagnostic]
    | some n =>
      dsimp only
      rw [Report.diagnostics_onlyIf_fault, Report.diagnostics_onlyIf_fault]
  | string =>
    dsimp only
    rw [Report.diagnostics_onlyIf_fault, Report.diagnostics_onlyIf_fault]
  | boolean => rfl

theorem Case.headsValid_map_bare (heads : List (Option Literal)) :
    Case.HeadsValid (heads.map (Option.map Literal.bare)) ↔ Case.HeadsValid heads := by
  have hvalues : ((heads.map (Option.map Literal.bare)).filterMap id).filterMap Literal.value? =
      (heads.filterMap id).filterMap Literal.value? := by
    simp only [List.filterMap_map, List.filterMap_filterMap]
    congr 1
    funext h
    cases h <;> rfl
  have hcount : (heads.map (Option.map Literal.bare)).countP Option.isNone =
      heads.countP Option.isNone := by
    rw [List.countP_map]
    congr 1
    funext h
    cases h <;> rfl
  unfold Case.HeadsValid
  rw [hvalues, hcount]
  refine and_congr_left' ⟨fun h l hl => ?_, fun h l hl => ?_⟩
  . rw [← l.valid_bare]
    exact h l.bare (List.mem_map.2 ⟨some l, hl, rfl⟩)
  . obtain ⟨head, hmem, heq⟩ := List.mem_map.1 hl
    obtain ⟨l', rfl, rfl⟩ := Option.map_eq_some_iff.1 heq
    rw [l'.valid_bare]
    exact h l' hmem

theorem Case.headsValid_bare (cs : List Case) :
    Case.HeadsValid ((Case.allBare cs).map Case.value) ↔ Case.HeadsValid (cs.map Case.value) := by
  have hheads : (Case.allBare cs).map Case.value =
      (cs.map Case.value).map (Option.map Literal.bare) := by
    rw [Case.allBare_eq_map, List.map_map, List.map_map]
    congr 1
    funext ⟨_, _, _⟩
    rfl
  rw [hheads, Case.headsValid_map_bare]

mutual

theorem Expr.yields_bare : (e : Expr) → (n : Nat) → (e.bare.Yields c n ↔ e.Yields c n)
  | .literal l, _ => and_congr_left' l.valid_bare
  | .identifier _, _ => Iff.rfl
  | .call _ _ arguments, _ => by
    unfold Expr.bare Expr.Yields
    rw [Expr.allSingle_bare arguments, Expr.allBare_eq_map, List.length_map]
    rfl
  | .instruction _ _ arguments, _ => by
    unfold Expr.bare Expr.Yields
    rw [Expr.allSingle_bare arguments, Expr.allBare_eq_map, List.length_map]

theorem Expr.allSingle_bare :
    (es : List Expr) → (Expr.AllSingle c (Expr.allBare es) ↔ Expr.AllSingle c es)
  | [] => Iff.rfl
  | e :: es => and_congr (Expr.yields_bare e 1) (Expr.allSingle_bare es)

end

theorem StackForm.valid_bare (form : StackForm) : form.bare.Valid c ↔ form.Valid c := by
  cases form <;> rfl

mutual

theorem Stmt.valid_bare (c : Context) : (s : Stmt) → (s.bare.Valid c ↔ s.Valid c)
  | .expression e => e.yields_bare c 0
  | .declaration _ _ none => Iff.rfl
  | .declaration _ vars (some value) => by
    unfold Stmt.bare Option.map Stmt.Valid
    rw [List.length_map]
    exact value.yields_bare c _
  | .assignment _ targets value => by
    unfold Stmt.bare Stmt.Valid
    rw [List.length_map, List.forall_mem_map, List.map_eq_nil_iff]
    exact and_congr_left' (value.yields_bare c _)
  | .conditional _ condition body => and_congr (condition.yields_bare c 1) (Block.valid_bare c body)
  | .switch _ subject arms =>
    and_congr (subject.yields_bare c 1)
      (and_congr (Case.allValid_bare c arms) (Case.headsValid_bare arms))
  | .loop _ ⟨_, pre⟩ condition post body => by
    change Stmt.Valid c (.loop .none ⟨.none, Stmt.allBare pre⟩ condition.bare post.bare body.bare) ↔ _
    unfold Stmt.Valid
    rw [c.enter_bare, Context.after_bare]
    refine and_congr (Stmt.allValid_bare _ pre) (and_congr (condition.yields_bare _ 1) ?_)
    exact and_congr (Block.valid_bare _ post) (Block.valid_bare _ body)
  | .function ⟨f, body⟩ => by
    unfold Stmt.bare Stmt.Valid
    rw [c.enterFunction_bare]
    exact Block.valid_bare _ body
  | .block b => Block.valid_bare c b
  | .stack form => and_congr_right' (form.valid_bare c)

theorem Stmt.allValid_bare (c : Context) :
    (ss : List Stmt) → (Stmt.AllValid c (Stmt.allBare ss) ↔ Stmt.AllValid c ss)
  | [] => Iff.rfl
  | s :: ss => by
    unfold Stmt.allBare Stmt.AllValid
    rw [c.declare_declared_bare]
    exact and_congr (Stmt.valid_bare c s) (Stmt.allValid_bare _ ss)

theorem Block.valid_bare (c : Context) : (b : Block) → (b.bare.Valid c ↔ b.Valid c)
  | ⟨_, ss⟩ => by
    unfold Block.bare Block.Valid
    rw [c.enter_bare]
    exact Stmt.allValid_bare _ ss

theorem Case.allValid_bare (c : Context) :
    (cs : List Case) → (Case.AllValid c (Case.allBare cs) ↔ Case.AllValid c cs)
  | [] => Iff.rfl
  | ⟨_, _, body⟩ :: cs => and_congr (Block.valid_bare c body) (Case.allValid_bare c cs)

end

mutual

theorem Stmt.declaresNew_bare (c : Context) : (s : Stmt) → (s.bare.DeclaresNew c ↔ s.DeclaresNew c)
  | .expression _ => Iff.rfl
  | .declaration _ vars _ => c.allDeclarable_bare vars
  | .assignment .. => Iff.rfl
  | .conditional _ _ body => Block.declaresNew_bare c body
  | .switch _ _ arms => Case.allDeclareNew_bare c arms
  | .loop _ ⟨_, pre⟩ condition post body => by
    change Stmt.DeclaresNew c
      (.loop .none ⟨.none, Stmt.allBare pre⟩ condition.bare post.bare body.bare) ↔ _
    unfold Stmt.DeclaresNew
    rw [c.enter_bare, Context.after_bare]
    refine and_congr (c.canEnter_bare pre) (and_congr (Stmt.allDeclareNew_bare _ pre) ?_)
    exact and_congr (Block.declaresNew_bare _ post) (Block.declaresNew_bare _ body)
  | .function ⟨f, body⟩ => by
    unfold Stmt.bare Stmt.DeclaresNew
    rw [c.enterFunction_bare]
    refine and_congr ?_ (Block.declaresNew_bare _ body)
    unfold Signature.bare
    rw [← List.map_append, Context.allDeclarable_bare]
  | .block b => Block.declaresNew_bare c b
  | .stack _ => Iff.rfl

theorem Stmt.allDeclareNew_bare (c : Context) :
    (ss : List Stmt) → (Stmt.AllDeclareNew c (Stmt.allBare ss) ↔ Stmt.AllDeclareNew c ss)
  | [] => Iff.rfl
  | s :: ss => by
    unfold Stmt.allBare Stmt.AllDeclareNew
    rw [c.declare_declared_bare]
    exact and_congr (Stmt.declaresNew_bare c s) (Stmt.allDeclareNew_bare _ ss)

theorem Block.declaresNew_bare (c : Context) : (b : Block) → (b.bare.DeclaresNew c ↔ b.DeclaresNew c)
  | ⟨_, ss⟩ => by
    unfold Block.bare Block.DeclaresNew
    rw [c.enter_bare]
    exact and_congr (c.canEnter_bare ss) (Stmt.allDeclareNew_bare _ ss)

theorem Case.allDeclareNew_bare (c : Context) :
    (cs : List Case) → (Case.AllDeclareNew c (Case.allBare cs) ↔ Case.AllDeclareNew c cs)
  | [] => Iff.rfl
  | ⟨_, _, body⟩ :: cs => and_congr (Block.declaresNew_bare c body) (Case.allDeclareNew_bare c cs)

end

end Splice
