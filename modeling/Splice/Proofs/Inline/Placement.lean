import Splice.Proofs.Inline.Occurrences
import Splice.Proofs.Names.Stem

/-!
This module contains what the pass that inlines makes of each node of a program: which calls it
replaces, and where it puts the arguments of the calls that stay.
-/

namespace Splice

/-! ## Eligible calls -/

/--
A call of a function other than those around it stands in the expression, at any depth.
-/
def Expr.HasEligible (enclosing : List String) (e : Expr) : Prop :=
  ∃ o ∈ e.occurrences, ∃ callee, o.item = .call callee ∧ callee ∉ enclosing

section

variable {enclosing : List String}

theorem exists_eligible_iff {es : List Expr} :
    (∃ o ∈ Expr.allOccurrences es, ∃ callee, o.item = .call callee ∧ callee ∉ enclosing) ↔
      ∃ e ∈ es, e.HasEligible enclosing := by
  rw [Expr.allOccurrences_eq_flatMap]
  simp only [List.mem_flatMap, Expr.HasEligible]
  grind

theorem Expr.hasEligible_instruction {span : Span} {name : String} {arguments : List Expr} :
    (Expr.instruction span name arguments).HasEligible enclosing ↔
      ∃ e ∈ arguments, e.HasEligible enclosing := by
  rw [← exists_eligible_iff]
  simp [HasEligible, occurrences]

theorem Expr.hasEligible_call {span : Span} {callee : Identifier} {arguments : List Expr} :
    (Expr.call span callee arguments).HasEligible enclosing ↔
      callee.name ∉ enclosing ∨ ∃ e ∈ arguments, e.HasEligible enclosing := by
  rw [← exists_eligible_iff]
  simp [HasEligible, occurrences]

end

namespace Inlining

/-! ## Arguments of a call that stays -/

/--
An argument of a call that stays, as it is once it is rewritten, and the variable that it is moved
into, if it is moved.
-/
structure Placement where
  rewritten : Staged
  moved? : Option Binder

namespace Placement

def before (p : Placement) : List Stmt :=
  match p.moved? with
  | none => p.rewritten.before
  | some x => moved x.span p.rewritten x

def expr (p : Placement) : Expr :=
  match p.moved? with
  | none => p.rewritten.expr
  | some x => .identifier ⟨x.span, x.name⟩

def allBefore (ps : List Placement) : List Stmt :=
  ps.reverse.flatMap before

theorem allBefore_cons (p : Placement) (ps : List Placement) :
    allBefore (p :: ps) = allBefore ps ++ p.before := by
  unfold allBefore
  rw [List.reverse_cons, List.flatMap_append, List.flatMap_singleton]

theorem allBefore_eq_nil {ps : List Placement} :
    allBefore ps = [] ↔ ∀ p ∈ ps, p.before = [] := by
  unfold allBefore
  simp only [List.flatMap_eq_nil_iff, List.mem_reverse]

theorem before_eq_nil {p : Placement} :
    p.before = [] ↔ p.rewritten.before = [] ∧ p.moved? = none := by
  unfold before
  split
  . next h => simp only [h, and_true]
  . next x h =>
    unfold moved
    simp only [List.append_eq_nil_iff, List.cons_ne_nil, and_false, h, reduceCtorEq]

def Declares (dialect : Dialect) (reserved : List String) (callee : String) (p : Placement) :
    Prop :=
  ∀ x ∈ p.moved?, x.span = p.rewritten.expr.span ∧ x.type = dialect.defaultType ∧
    IsStem x.name (callee ++ "_arg") ∧ x.name ∉ reserved

end Placement

/--
Where the arguments of a call of `callee` end up if the call stays.
-/
structure Placed (reserved : List String) (s : Setting) (callee : String) (arguments : List Expr)
    (ps : List Placement) : Prop where
  /--
  An argument is moved if and only if it is not movable once it is rewritten and an eligible call
  stands in an argument further left.
  -/
  moved_iff : ∀ (i : Nat) (p : Placement), ps[i]? = some p → (p.moved?.isSome = true ↔
    p.rewritten.expr.isMovable = false ∧ ∃ e ∈ arguments.take i, e.HasEligible s.enclosing)
  declares : ∀ p ∈ ps, p.Declares s.dialect reserved callee
  /--
  An argument in which no eligible call stands is the one that it was.
  -/
  untouched : ∀ (i : Nat) (e : Expr) (p : Placement), arguments[i]? = some e → ps[i]? = some p →
    ¬e.HasEligible s.enclosing → p.rewritten = ⟨[], e⟩

/-! ## Calls that are replaced -/

/--
What a call of `f` with the rewritten arguments `rs` is replaced by: the arguments are moved into
variables, from right to left, and the body is copied with these variables and the targets in the
place of the parameters and the return variables.
-/
def Expands (p : Block) (f : Function) (span : Span) (rs : List Staged) (targets : List String)
    (before : List Stmt) (body : Block) : Prop :=
  ∃ (xs : List Binder) (ρ : String → String), xs.length = rs.length ∧
    before = (rs.zip xs).reverse.flatMap (fun (r, x) => moved span r x) ∧
    body = ⟨span, (f.body.rename ρ).statements⟩ ∧
    Instance p f targets ((f.parameters.map Binder.name).zip (xs.map Binder.name)) ρ

end Inlining

open Inlining

/-! ## Expressions -/

mutual

/--
What becomes of an expression at a place where the names `reserved` are in use.
-/
inductive Expr.InlinesTo (reserved : List String) (s : Setting) : Expr → Staged → Prop
  | literal (l : Literal) : Expr.InlinesTo reserved s (.literal l) ⟨[], .literal l⟩
  | identifier (i : Identifier) : Expr.InlinesTo reserved s (.identifier i) ⟨[], .identifier i⟩
  | instruction {span : Span} {name : String} {arguments : List Expr} {ps : List Placement}
      (harguments : List.Forall₂ (Expr.InlinesTo reserved s) arguments
        (ps.map Placement.rewritten))
      (hplaced : Placed reserved s name arguments ps) :
      Expr.InlinesTo reserved s (.instruction span name arguments)
        ⟨Placement.allBefore ps, .instruction span name (ps.map Placement.expr)⟩
  | stays {span : Span} {callee : Identifier} {arguments : List Expr} {ps : List Placement}
      (hcallee : callee.name ∈ s.enclosing)
      (harguments : List.Forall₂ (Expr.InlinesTo reserved s) arguments
        (ps.map Placement.rewritten))
      (hplaced : Placed reserved s callee.name arguments ps) :
      Expr.InlinesTo reserved s (.call span callee arguments)
        ⟨Placement.allBefore ps, .call span callee (ps.map Placement.expr)⟩
  | replaced {span : Span} {callee : Identifier} {arguments : List Expr} {x : Binder}
      {before : List Stmt} {body : Block}
      (h : Expr.ExpandsTo reserved s (.call span callee arguments) [x.name] before body) :
      Expr.InlinesTo reserved s (.call span callee arguments)
        ⟨spliced before span [x] body, .identifier ⟨span, x.name⟩⟩

/--
The expression is a call that is replaced, and the values returned go to the targets.
-/
inductive Expr.ExpandsTo (reserved : List String) (s : Setting) :
    Expr → List String → List Stmt → Block → Prop
  | call {span : Span} {callee : Identifier} {arguments : List Expr} {f : Function}
      {rs : List Staged} {targets : List String} {before : List Stmt} {body : Block}
      (hcallee : callee.name ∉ s.enclosing) (hf : f ∈ s.program.functions)
      (hname : f.name = callee.name)
      (harguments : List.Forall₂ (Expr.InlinesTo reserved s) arguments rs)
      (hexpands : Expands s.program f span rs targets before body) :
      Expr.ExpandsTo reserved s (.call span callee arguments) targets before body

end

section

variable {reserved : List String} {s : Setting}

theorem Inlining.Placed.eq_of_not_hasEligible {callee : String} {arguments : List Expr}
    {ps : List Placement} (h : Placed reserved s callee arguments ps)
    (hlength : arguments.length = ps.length)
    (hnone : ∀ e ∈ arguments, ¬e.HasEligible s.enclosing) :
    Placement.allBefore ps = [] ∧ ps.map Placement.expr = arguments := by
  -- No argument changed, and without an eligible call further left none is moved.
  have hps : ps = arguments.map fun e => ⟨⟨[], e⟩, none⟩ := by
    refine List.ext_getElem (by rw [List.length_map, hlength]) fun i hp he => ?_
    rw [List.length_map] at he
    rw [List.getElem_map]
    have hrewritten := h.untouched i arguments[i] ps[i] (List.getElem?_eq_getElem he)
      (List.getElem?_eq_getElem hp) (hnone _ (List.getElem_mem he))
    have hstays : ps[i].moved? = none := by
      rw [← Option.not_isSome_iff_eq_none, h.moved_iff i ps[i] (List.getElem?_eq_getElem hp)]
      rintro ⟨_, e, hmem, heligible⟩
      exact hnone e (List.mem_of_mem_take hmem) heligible
    rw [← hrewritten, ← hstays]
  rw [Placement.allBefore_eq_nil, hps]
  constructor
  . intro p hp
    obtain ⟨e, _, rfl⟩ := List.mem_map.1 hp
    rfl
  . rw [List.map_map]
    exact List.map_id _

theorem Expr.InlinesTo.eq_of_not_hasEligible {e : Expr} {r : Staged} (h : e.InlinesTo reserved s r)
    (hnone : ¬e.HasEligible s.enclosing) : r = ⟨[], e⟩ := by
  cases h with
  | literal => rfl
  | identifier => rfl
  | instruction harguments hplaced =>
    rw [hasEligible_instruction] at hnone
    obtain ⟨hbefore, hes⟩ := hplaced.eq_of_not_hasEligible
      (harguments.length_eq.trans (List.length_map _)) fun e he h => hnone ⟨e, he, h⟩
    rw [hbefore, hes]
  | stays _ harguments hplaced =>
    rw [hasEligible_call] at hnone
    obtain ⟨hbefore, hes⟩ := hplaced.eq_of_not_hasEligible
      (harguments.length_eq.trans (List.length_map _)) fun e he h => hnone (.inr ⟨e, he, h⟩)
    rw [hbefore, hes]
  | replaced h =>
    cases h with
    | call hcallee => exact (hnone (hasEligible_call.2 (.inl hcallee))).elim

theorem Inlining.Placement.allBefore_ne_nil {ps : List Placement}
    (h : ∃ r ∈ ps.map Placement.rewritten, r.before ≠ []) : allBefore ps ≠ [] := by
  obtain ⟨r, hr, hne⟩ := h
  obtain ⟨p, hp, rfl⟩ := List.mem_map.1 hr
  rw [Ne, allBefore_eq_nil]
  exact fun hnil => hne (before_eq_nil.1 (hnil p hp)).1

mutual

theorem Expr.InlinesTo.before_ne_nil : {e : Expr} → {r : Staged} → e.InlinesTo reserved s r →
    e.HasEligible s.enclosing → r.before ≠ []
  | _, _, .literal _, h => by simp [HasEligible, occurrences] at h
  | _, _, .identifier _, h => by simp [HasEligible, occurrences] at h
  | .instruction _ _ arguments, _, .instruction harguments _, h =>
    Placement.allBefore_ne_nil
      (Expr.InlinesTo.exists_before_ne_nil arguments harguments (hasEligible_instruction.1 h))
  | .call _ _ arguments, _, .stays hcallee harguments _, h =>
    Placement.allBefore_ne_nil
      (Expr.InlinesTo.exists_before_ne_nil arguments harguments
        ((hasEligible_call.1 h).resolve_left fun hn => hn hcallee))
  -- The body that replaces the call is one of the statements.
  | _, _, .replaced _, _ => List.append_ne_nil_of_right_ne_nil _ (List.cons_ne_nil _ _)

theorem Expr.InlinesTo.exists_before_ne_nil : (es : List Expr) → {rs : List Staged} →
    List.Forall₂ (Expr.InlinesTo reserved s) es rs → (∃ e ∈ es, e.HasEligible s.enclosing) →
    ∃ r ∈ rs, r.before ≠ []
  | [], _, _, h => by simp at h
  | e :: es, _, .cons hfirst hothers, h => by
    rw [List.exists_mem_cons_iff] at h ⊢
    exact h.imp (Expr.InlinesTo.before_ne_nil hfirst)
      (Expr.InlinesTo.exists_before_ne_nil es hothers)

end

theorem Expr.InlinesTo.before_eq_nil_iff {e : Expr} {r : Staged} (h : e.InlinesTo reserved s r) :
    r.before = [] ↔ ¬e.HasEligible s.enclosing := by
  constructor
  . exact fun hnil heligible => h.before_ne_nil heligible hnil
  . exact fun hnone => by rw [h.eq_of_not_hasEligible hnone]

theorem Expr.InlinesTo.exists_eligible_iff {es : List Expr} {rs : List Staged}
    (h : List.Forall₂ (Expr.InlinesTo reserved s) es rs) :
    (∃ r ∈ rs, r.before ≠ []) ↔ ∃ e ∈ es, e.HasEligible s.enclosing := by
  induction h with
  | nil => simp
  | cons hfirst _ ih =>
    rw [List.exists_mem_cons_iff, List.exists_mem_cons_iff, ih, Ne, hfirst.before_eq_nil_iff,
      not_not]

end

/-! ## Statements -/

mutual

inductive Stmt.InlinesTo (reserved : List String) : Setting → Stmt → List Stmt → Prop
  | expression {s : Setting} {e : Expr} {r : Staged} (hcall : s.call? e = none)
      (he : e.InlinesTo reserved s r) :
      Stmt.InlinesTo reserved s (.expression e) (r.before ++ [.expression r.expr])
  | expressionCall {s : Setting} {span : Span} {callee : Identifier} {arguments : List Expr}
      {xs : List Binder} {before : List Stmt} {body : Block}
      (h : (Expr.call span callee arguments).ExpandsTo reserved s (xs.map Binder.name)
        before body) :
      Stmt.InlinesTo reserved s (.expression (.call span callee arguments))
        (spliced before span xs body)
  | bareDeclaration {s : Setting} (span : Span) (vars : List Binder) :
      Stmt.InlinesTo reserved s (.declaration span vars none) [.declaration span vars none]
  | declaration {s : Setting} {span : Span} {vars : List Binder} {value : Expr} {r : Staged}
      (hcall : s.call? value = none) (hvalue : value.InlinesTo reserved s r) :
      Stmt.InlinesTo reserved s (.declaration span vars (some value))
        (r.before ++ [.declaration span vars (some r.expr)])
  | declarationCall {s : Setting} {span callSpan : Span} {vars : List Binder} {callee : Identifier}
      {arguments : List Expr} {before : List Stmt} {body : Block}
      (h : (Expr.call callSpan callee arguments).ExpandsTo reserved s (vars.map Binder.name)
        before body) :
      Stmt.InlinesTo reserved s (.declaration span vars (some (.call callSpan callee arguments)))
        (spliced before span vars body)
  | assignment {s : Setting} {span : Span} {targets : List Identifier} {value : Expr} {r : Staged}
      (hcall : s.call? value = none) (hvalue : value.InlinesTo reserved s r) :
      Stmt.InlinesTo reserved s (.assignment span targets value)
        (r.before ++ [.assignment span targets r.expr])
  | assignmentCall {s : Setting} {span callSpan : Span} {targets : List Identifier}
      {callee : Identifier} {arguments : List Expr} {xs : List Binder} {before : List Stmt}
      {body : Block}
      (h : (Expr.call callSpan callee arguments).ExpandsTo reserved s (xs.map Binder.name)
        before body) :
      Stmt.InlinesTo reserved s (.assignment span targets (.call callSpan callee arguments))
        (spliced before callSpan xs body ++ copies span callSpan targets xs)
  | conditional {s : Setting} {span : Span} {condition : Expr} {body body' : Block} {r : Staged}
      (hcondition : condition.InlinesTo reserved s r)
      (hbody : Block.InlinesTo reserved s body body') :
      Stmt.InlinesTo reserved s (.conditional span condition body)
        (r.before ++ [.conditional span r.expr body'])
  | switch {s : Setting} {span : Span} {subject : Expr} {arms arms' : List Case} {r : Staged}
      (hsubject : subject.InlinesTo reserved s r) (harms : Case.AllInlineTo reserved s arms arms') :
      Stmt.InlinesTo reserved s (.switch span subject arms)
        (r.before ++ [.switch span r.expr arms'])
  | loop {s : Setting} {span : Span} {pre pre' : Block} {condition : Expr}
      {post post' body body' : Block} (hpre : Block.InlinesTo reserved s pre pre')
      (hpost : Block.InlinesTo reserved s post post')
      (hbody : Block.InlinesTo reserved s body body') :
      Stmt.InlinesTo reserved s (.loop span pre condition post body)
        [.loop span pre' condition post' body']
  | function {s : Setting} {f : Signature} {body body' : Block}
      (hbody : Block.InlinesTo reserved (s.within f.name) body body') :
      Stmt.InlinesTo reserved s (.function ⟨f, body⟩) [.function ⟨f, body'⟩]
  | block {s : Setting} {b b' : Block} (hb : Block.InlinesTo reserved s b b') :
      Stmt.InlinesTo reserved s (.block b) [.block b']

inductive Stmt.AllInlineTo (reserved : List String) : Setting → List Stmt → List Stmt → Prop
  | nil {s : Setting} : Stmt.AllInlineTo reserved s [] []
  | cons {s : Setting} {x : Stmt} {xs ss ts : List Stmt} (hx : Stmt.InlinesTo reserved s x ss)
      (hxs : Stmt.AllInlineTo reserved s xs ts) : Stmt.AllInlineTo reserved s (x :: xs) (ss ++ ts)

inductive Block.InlinesTo (reserved : List String) : Setting → Block → Block → Prop
  | mk {s : Setting} {span : Span} {xs ss : List Stmt} (hxs : Stmt.AllInlineTo reserved s xs ss) :
      Block.InlinesTo reserved s ⟨span, xs⟩ ⟨span, ss⟩

inductive Case.AllInlineTo (reserved : List String) : Setting → List Case → List Case → Prop
  | nil {s : Setting} : Case.AllInlineTo reserved s [] []
  | cons {s : Setting} {span : Span} {value : Option Literal} {body body' : Block}
      {cs cs' : List Case} (hbody : Block.InlinesTo reserved s body body')
      (hcs : Case.AllInlineTo reserved s cs cs') :
      Case.AllInlineTo reserved s (⟨span, value, body⟩ :: cs) (⟨span, value, body'⟩ :: cs')

end

end Splice
