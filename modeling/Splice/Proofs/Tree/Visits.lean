import Splice.Pass.Failure
import Splice.Proofs.Inline.Rename
import Splice.Proofs.Tree.Anonymous

/-!
This module contains what the copying of a tree does: which names it replaces, and what it comes
across on its way.
-/

namespace Splice

/-! ## Uses -/

mutual

def Expr.identifiers : Expr → List Identifier
  | .literal _ => []
  | .identifier i => [i]
  | .call _ callee arguments => callee :: Expr.allIdentifiers arguments
  | .instruction _ _ arguments => Expr.allIdentifiers arguments

def Expr.allIdentifiers : List Expr → List Identifier
  | [] => []
  | e :: es => e.identifiers ++ Expr.allIdentifiers es

end

def StackForm.identifiers : StackForm → List Identifier
  | .label .. => []
  | .assignment _ target => [target]
  | .instruction .. => []

mutual

def Stmt.identifiers : Stmt → List Identifier
  | .expression e => e.identifiers
  | .declaration _ _ value => value.elim [] Expr.identifiers
  | .assignment _ targets value => targets ++ value.identifiers
  | .conditional _ condition body => condition.identifiers ++ body.identifiers
  | .switch _ subject arms => subject.identifiers ++ Case.allIdentifiers arms
  | .loop _ pre condition post body =>
    pre.identifiers ++ condition.identifiers ++ post.identifiers ++ body.identifiers
  | .function ⟨_, body⟩ => body.identifiers
  | .block b => b.identifiers
  | .stack form => form.identifiers

def Stmt.allIdentifiers : List Stmt → List Identifier
  | [] => []
  | s :: ss => s.identifiers ++ Stmt.allIdentifiers ss

def Block.identifiers : Block → List Identifier
  | ⟨_, ss⟩ => Stmt.allIdentifiers ss

def Case.allIdentifiers : List Case → List Identifier
  | [] => []
  | ⟨_, _, body⟩ :: cs => body.identifiers ++ Case.allIdentifiers cs

end

section

variable (ρ : String → String)

mutual

def Expr.renameUses : Expr → Expr
  | .literal l => .literal l
  | .identifier i => .identifier (i.rename ρ)
  | .call span callee arguments => .call span (callee.rename ρ) (Expr.allRenameUses arguments)
  | .instruction span name arguments => .instruction span name (Expr.allRenameUses arguments)

def Expr.allRenameUses : List Expr → List Expr
  | [] => []
  | e :: es => e.renameUses :: Expr.allRenameUses es

end

def StackForm.renameUses : StackForm → StackForm
  | .label span name => .label span name
  | .assignment span target => .assignment span (target.rename ρ)
  | .instruction span name => .instruction span name

mutual

def Stmt.renameUses : Stmt → Stmt
  | .expression e => .expression (e.renameUses ρ)
  | .declaration span vars value => .declaration span vars (value.map (Expr.renameUses ρ))
  | .assignment span targets value =>
    .assignment span (targets.map (Identifier.rename ρ)) (value.renameUses ρ)
  | .conditional span condition body => .conditional span (condition.renameUses ρ) body.renameUses
  | .switch span subject arms => .switch span (subject.renameUses ρ) (Case.allRenameUses arms)
  | .loop span pre condition post body =>
    .loop span pre.renameUses (condition.renameUses ρ) post.renameUses body.renameUses
  | .function ⟨f, body⟩ => .function ⟨f, body.renameUses⟩
  | .block b => .block b.renameUses
  | .stack form => .stack (form.renameUses ρ)

def Stmt.allRenameUses : List Stmt → List Stmt
  | [] => []
  | s :: ss => s.renameUses :: Stmt.allRenameUses ss

def Block.renameUses : Block → Block
  | ⟨span, ss⟩ => ⟨span, Stmt.allRenameUses ss⟩

def Case.allRenameUses : List Case → List Case
  | [] => []
  | ⟨span, value, body⟩ :: cs => ⟨span, value, body.renameUses⟩ :: Case.allRenameUses cs

end

/-! ## What is replaced -/

mutual

theorem Expr.identifiers_renameUses : (e : Expr) →
    (e.renameUses ρ).identifiers = e.identifiers.map (Identifier.rename ρ)
  | .literal _ => rfl
  | .identifier _ => rfl
  | .call _ _ arguments => congrArg _ (Expr.allIdentifiers_renameUses arguments)
  | .instruction _ _ arguments => Expr.allIdentifiers_renameUses arguments

theorem Expr.allIdentifiers_renameUses : (es : List Expr) →
    Expr.allIdentifiers (Expr.allRenameUses ρ es) =
      (Expr.allIdentifiers es).map (Identifier.rename ρ)
  | [] => rfl
  | e :: es => by
    simp only [Expr.allRenameUses, Expr.allIdentifiers, e.identifiers_renameUses,
      Expr.allIdentifiers_renameUses es, List.map_append]

end

mutual

theorem Stmt.identifiers_renameUses : (s : Stmt) →
    (s.renameUses ρ).identifiers = s.identifiers.map (Identifier.rename ρ)
  | .expression e => e.identifiers_renameUses ρ
  | .declaration _ _ none => rfl
  | .declaration _ _ (some e) => e.identifiers_renameUses ρ
  | .assignment _ targets value => by
    simp only [Stmt.renameUses, Stmt.identifiers, value.identifiers_renameUses, List.map_append]
  | .conditional _ condition body => by
    simp only [Stmt.renameUses, Stmt.identifiers, condition.identifiers_renameUses,
      body.identifiers_renameUses, List.map_append]
  | .switch _ subject arms => by
    simp only [Stmt.renameUses, Stmt.identifiers, subject.identifiers_renameUses,
      Case.allIdentifiers_renameUses arms, List.map_append]
  | .loop _ pre condition post body => by
    simp only [Stmt.renameUses, Stmt.identifiers, pre.identifiers_renameUses,
      condition.identifiers_renameUses, post.identifiers_renameUses, body.identifiers_renameUses,
      List.map_append]
  | .function ⟨_, body⟩ => body.identifiers_renameUses
  | .block b => b.identifiers_renameUses
  | .stack (.label ..) => rfl
  | .stack (.assignment ..) => rfl
  | .stack (.instruction ..) => rfl

theorem Stmt.allIdentifiers_renameUses : (ss : List Stmt) →
    Stmt.allIdentifiers (Stmt.allRenameUses ρ ss) =
      (Stmt.allIdentifiers ss).map (Identifier.rename ρ)
  | [] => rfl
  | s :: ss => by
    simp only [Stmt.allRenameUses, Stmt.allIdentifiers, s.identifiers_renameUses,
      Stmt.allIdentifiers_renameUses ss, List.map_append]

theorem Block.identifiers_renameUses : (b : Block) →
    (b.renameUses ρ).identifiers = b.identifiers.map (Identifier.rename ρ)
  | ⟨_, ss⟩ => Stmt.allIdentifiers_renameUses ss

theorem Case.allIdentifiers_renameUses : (cs : List Case) →
    Case.allIdentifiers (Case.allRenameUses ρ cs) =
      (Case.allIdentifiers cs).map (Identifier.rename ρ)
  | [] => rfl
  | ⟨_, _, body⟩ :: cs => by
    simp only [Case.allRenameUses, Case.allIdentifiers, body.identifiers_renameUses,
      Case.allIdentifiers_renameUses cs, List.map_append]

end

mutual

theorem Stmt.boundNames_renameUses : (s : Stmt) → (s.renameUses ρ).boundNames = s.boundNames
  | .expression _ => rfl
  | .declaration .. => rfl
  | .assignment .. => rfl
  | .conditional _ _ body => body.boundNames_renameUses
  | .switch _ _ arms => Case.allBoundNames_renameUses arms
  | .loop _ pre _ post body => by
    simp only [Stmt.renameUses, Stmt.boundNames, pre.boundNames_renameUses,
      post.boundNames_renameUses, body.boundNames_renameUses]
  | .function ⟨_, body⟩ => by
    simp only [Stmt.renameUses, Stmt.boundNames, body.boundNames_renameUses]
  | .block b => b.boundNames_renameUses
  | .stack (.label ..) => rfl
  | .stack (.assignment ..) => rfl
  | .stack (.instruction ..) => rfl

theorem Stmt.allBoundNames_renameUses : (ss : List Stmt) →
    Stmt.allBoundNames (Stmt.allRenameUses ρ ss) = Stmt.allBoundNames ss
  | [] => rfl
  | s :: ss => by
    simp only [Stmt.allRenameUses, Stmt.allBoundNames, s.boundNames_renameUses,
      Stmt.allBoundNames_renameUses ss]

theorem Block.boundNames_renameUses : (b : Block) → (b.renameUses ρ).boundNames = b.boundNames
  | ⟨_, ss⟩ => Stmt.allBoundNames_renameUses ss

theorem Case.allBoundNames_renameUses : (cs : List Case) →
    Case.allBoundNames (Case.allRenameUses ρ cs) = Case.allBoundNames cs
  | [] => rfl
  | ⟨_, _, body⟩ :: cs => by
    simp only [Case.allRenameUses, Case.allBoundNames, body.boundNames_renameUses,
      Case.allBoundNames_renameUses cs]

end

end

mutual

theorem Expr.renameUses_id : (e : Expr) → e.renameUses id = e
  | .literal _ => rfl
  | .identifier _ => rfl
  | .call _ _ arguments => congrArg (Expr.call _ _) (Expr.allRenameUses_id arguments)
  | .instruction _ _ arguments => congrArg (Expr.instruction _ _) (Expr.allRenameUses_id arguments)

theorem Expr.allRenameUses_id : (es : List Expr) → Expr.allRenameUses id es = es
  | [] => rfl
  | e :: es => congrArg₂ List.cons e.renameUses_id (Expr.allRenameUses_id es)

end

mutual

theorem Stmt.renameUses_id : (s : Stmt) → s.renameUses id = s
  | .expression e => congrArg Stmt.expression e.renameUses_id
  | .declaration _ _ none => rfl
  | .declaration _ _ (some e) => congrArg (Stmt.declaration _ _ ∘ some) e.renameUses_id
  | .assignment _ targets value =>
    congrArg₂ (Stmt.assignment _) (List.map_id targets) value.renameUses_id
  | .conditional _ condition body =>
    congrArg₂ (Stmt.conditional _) condition.renameUses_id body.renameUses_id
  | .switch _ subject arms =>
    congrArg₂ (Stmt.switch _) subject.renameUses_id (Case.allRenameUses_id arms)
  | .loop _ pre condition post body => by
    rw [Stmt.renameUses, pre.renameUses_id, condition.renameUses_id, post.renameUses_id,
      body.renameUses_id]
  | .function ⟨f, body⟩ => congrArg (fun b => Stmt.function ⟨f, b⟩) body.renameUses_id
  | .block b => congrArg Stmt.block b.renameUses_id
  | .stack (.label ..) => rfl
  | .stack (.assignment ..) => rfl
  | .stack (.instruction ..) => rfl

theorem Stmt.allRenameUses_id : (ss : List Stmt) → Stmt.allRenameUses id ss = ss
  | [] => rfl
  | s :: ss => congrArg₂ List.cons s.renameUses_id (Stmt.allRenameUses_id ss)

theorem Block.renameUses_id : (b : Block) → b.renameUses id = b
  | ⟨span, ss⟩ => congrArg (Block.mk span) (Stmt.allRenameUses_id ss)

theorem Case.allRenameUses_id : (cs : List Case) → Case.allRenameUses id cs = cs
  | [] => rfl
  | ⟨span, value, body⟩ :: cs =>
    congrArg₂ (fun b cs => Case.mk span value b :: cs) body.renameUses_id
      (Case.allRenameUses_id cs)

end

/-! ## Moments -/

inductive Moment where
  | use (i : Identifier)
  | enter (statements : List Stmt)
  | leave

namespace Moment

def visit : Moment → Block.Visit
  | use i => .use i.name i.span.start
  | enter ss => .enter ss.length
  | leave => .leave

def use? : Moment → Option Identifier
  | use i => some i
  | enter _ => none
  | leave => none

end Moment

mutual

def Stmt.moments : Stmt → List Moment
  | .expression e => e.identifiers.map .use
  | .declaration _ _ value => (value.elim [] Expr.identifiers).map .use
  | .assignment _ targets value => targets.map .use ++ value.identifiers.map .use
  | .conditional _ condition body => condition.identifiers.map .use ++ body.moments
  | .switch _ subject arms => subject.identifiers.map .use ++ Case.allMoments arms
  | .loop _ ⟨_, pre⟩ condition post body =>
    .enter pre :: (Stmt.allMoments pre ++ condition.identifiers.map .use ++ post.moments ++
      body.moments ++ [.leave])
  | .function ⟨_, body⟩ => body.moments
  | .block b => b.moments
  | .stack form => form.identifiers.map .use

def Stmt.allMoments : List Stmt → List Moment
  | [] => []
  | s :: ss => s.moments ++ Stmt.allMoments ss

/--
All uses of names in a block, with the blocks around them, in the order of the source. The first
block of a loop lasts until the end of the loop.
-/
def Block.moments : Block → List Moment
  | ⟨_, ss⟩ => .enter ss :: (Stmt.allMoments ss ++ [.leave])

def Case.allMoments : List Case → List Moment
  | [] => []
  | ⟨_, _, body⟩ :: cs => body.moments ++ Case.allMoments cs

end

/--
Blocks lie behind each other or in each other, and each is left as often as it is entered.
-/
inductive Bracketed : List Moment → Prop
  | nil : Bracketed []
  | use (i : Identifier) {ms : List Moment} : Bracketed ms → Bracketed (.use i :: ms)
  | scope (ss : List Stmt) {ms ms' : List Moment} : Bracketed ms → Bracketed ms' →
    Bracketed (.enter ss :: (ms ++ .leave :: ms'))

namespace Bracketed

theorem append {ms ms' : List Moment} (h : Bracketed ms) (h' : Bracketed ms') :
    Bracketed (ms ++ ms') := by
  induction h with
  | nil => exact h'
  | use i _ ih => exact .use i ih
  | scope ss hinside _ _ ih =>
    rw [List.cons_append, List.append_assoc, List.cons_append]
    exact .scope ss hinside ih

theorem uses (is : List Identifier) : Bracketed (is.map .use) := by
  induction is with
  | nil => exact .nil
  | cons i is ih => exact .use i ih

theorem block (ss : List Stmt) {ms : List Moment} (h : Bracketed ms) :
    Bracketed (.enter ss :: (ms ++ [.leave])) :=
  .scope ss h .nil

end Bracketed

mutual

theorem Stmt.bracketed_moments : (s : Stmt) → Bracketed s.moments
  | .expression _ => .uses _
  | .declaration .. => .uses _
  | .assignment .. => (Bracketed.uses _).append (.uses _)
  | .conditional _ _ body => (Bracketed.uses _).append body.bracketed_moments
  | .switch _ _ arms => (Bracketed.uses _).append (Case.bracketed_allMoments arms)
  | .loop _ ⟨_, pre⟩ condition post body => by
    apply Bracketed.block
    apply Bracketed.append _ body.bracketed_moments
    apply Bracketed.append _ post.bracketed_moments
    exact (Stmt.bracketed_allMoments pre).append (.uses _)
  | .function ⟨_, body⟩ => body.bracketed_moments
  | .block b => b.bracketed_moments
  | .stack _ => .uses _

theorem Stmt.bracketed_allMoments : (ss : List Stmt) → Bracketed (Stmt.allMoments ss)
  | [] => .nil
  | s :: ss => s.bracketed_moments.append (Stmt.bracketed_allMoments ss)

theorem Block.bracketed_moments : (b : Block) → Bracketed b.moments
  | ⟨_, ss⟩ => (Stmt.bracketed_allMoments ss).block ss

theorem Case.bracketed_allMoments : (cs : List Case) → Bracketed (Case.allMoments cs)
  | [] => .nil
  | ⟨_, _, body⟩ :: cs => body.bracketed_moments.append (Case.bracketed_allMoments cs)

end

theorem Moment.filterMap_use?_uses (is : List Identifier) :
    (is.map Moment.use).filterMap Moment.use? = is := by
  rw [List.filterMap_map]
  exact List.filterMap_some

mutual

theorem Stmt.uses_moments : (s : Stmt) → s.moments.filterMap Moment.use? = s.identifiers
  | .expression _ => Moment.filterMap_use?_uses _
  | .declaration .. => Moment.filterMap_use?_uses _
  | .assignment .. => by
    simp only [Stmt.moments, Stmt.identifiers, List.filterMap_append, Moment.filterMap_use?_uses]
  | .conditional _ _ body => by
    simp only [Stmt.moments, Stmt.identifiers, List.filterMap_append, Moment.filterMap_use?_uses,
      body.uses_moments]
  | .switch _ _ arms => by
    simp only [Stmt.moments, Stmt.identifiers, List.filterMap_append, Moment.filterMap_use?_uses,
      Case.uses_allMoments arms]
  | .loop _ ⟨_, pre⟩ _ post body => by
    simp only [Stmt.moments, Stmt.identifiers, Block.identifiers, List.filterMap_append,
      List.filterMap_cons, List.filterMap_nil, Moment.use?, Moment.filterMap_use?_uses,
      Stmt.uses_allMoments pre, post.uses_moments, body.uses_moments, List.append_nil]
  | .function ⟨_, body⟩ => body.uses_moments
  | .block b => b.uses_moments
  | .stack _ => Moment.filterMap_use?_uses _

theorem Stmt.uses_allMoments : (ss : List Stmt) →
    (Stmt.allMoments ss).filterMap Moment.use? = Stmt.allIdentifiers ss
  | [] => rfl
  | s :: ss => by
    rw [Stmt.allMoments, List.filterMap_append, s.uses_moments, Stmt.uses_allMoments ss]
    rfl

theorem Block.uses_moments : (b : Block) → b.moments.filterMap Moment.use? = b.identifiers
  | ⟨_, ss⟩ => by
    simp only [Block.moments, Block.identifiers, List.filterMap_append, List.filterMap_cons,
      List.filterMap_nil, Moment.use?, Stmt.uses_allMoments ss, List.append_nil]

theorem Case.uses_allMoments : (cs : List Case) →
    (Case.allMoments cs).filterMap Moment.use? = Case.allIdentifiers cs
  | [] => rfl
  | ⟨_, _, body⟩ :: cs => by
    rw [Case.allMoments, List.filterMap_append, body.uses_moments, Case.uses_allMoments cs]
    rfl

end

/-! ## The copying -/

namespace Traversal

variable {m : Type → Type} [Monad m]

def observe (f : Moment → m Unit) (ρ : String → String) : Traversal m :=
  let use := fun (i : Identifier) => do
    f (.use i)
    return i.rename ρ
  { ofUse use with
    enterBlock := fun ss => f (.enter ss)
    leaveBlock := f .leave }

def report {α : Type} (f : Moment → m Unit) (ms : List Moment) (a : α) : m α := do
  forM ms f
  return a

variable (f : Moment → m Unit) (ρ : String → String)

theorem vars_observe (xs : List Binder) : (observe f ρ).vars xs = pure xs := rfl

theorem enterFunction_observe (g : Signature) : (observe f ρ).enterFunction g = pure g := rfl

theorem leaveFunction_observe : (observe f ρ).leaveFunction = pure () := rfl

variable [LawfulMonad m]

theorem report_nil {α : Type} (a : α) : report f [] a = pure a := by
  rw [report, List.forM_nil, pure_bind]

theorem report_singleton (moment : Moment) : report f [moment] () = f moment := by
  simp [report]

theorem report_bind_pure {α β : Type} (ms : List Moment) (a : α) (b : α → β) :
    (report f ms a >>= fun a => pure (b a)) = report f ms (b a) := by
  simp only [report, bind_assoc, pure_bind]

theorem report_bind {α β : Type} (ms ms' : List Moment) (a : α) (b : α → β) :
    (report f ms a >>= fun a => report f ms' (b a)) = report f (ms ++ ms') (b a) := by
  simp only [report, bind_assoc, pure_bind, List.forM_append]

theorem use_observe (i : Identifier) :
    (observe f ρ).use i = report f [.use i] (i.rename ρ) := by
  change (f (.use i) >>= fun _ => pure (i.rename ρ)) = _
  rw [← report_singleton f (.use i), report_bind_pure]

theorem enterBlock_observe (ss : List Stmt) :
    (observe f ρ).enterBlock ss = report f [.enter ss] () :=
  (report_singleton f (.enter ss)).symm

theorem leaveBlock_observe : (observe f ρ).leaveBlock = report f [.leave] () :=
  (report_singleton f .leave).symm

theorem uses_observe (is : List Identifier) :
    (observe f ρ).uses is = report f (is.map .use) (is.map (Identifier.rename ρ)) := by
  induction is with
  | nil => exact (report_nil f _).symm
  | cons i is ih =>
    simp only [uses, use_observe, ih, report_bind, report_bind_pure]
    rfl

mutual

theorem expr_observe : (e : Expr) →
    (observe f ρ).expr e = report f (e.identifiers.map .use) (e.renameUses ρ)
  | .literal _ => (report_nil f _).symm
  | .identifier i => by
    rw [expr, use_observe, report_bind_pure]
    rfl
  | .call _ callee arguments => by
    simp only [expr, use_observe, exprs_observe arguments, report_bind, report_bind_pure]
    rfl
  | .instruction _ _ arguments => by
    rw [expr, exprs_observe arguments, report_bind_pure]
    rfl

theorem exprs_observe : (es : List Expr) → (observe f ρ).exprs es =
    report f ((Expr.allIdentifiers es).map .use) (Expr.allRenameUses ρ es)
  | [] => (report_nil f _).symm
  | e :: es => by
    simp only [exprs, expr_observe e, exprs_observe es, report_bind, report_bind_pure,
      Expr.allIdentifiers, List.map_append]
    rfl

end

theorem optionalExpr_observe (e? : Option Expr) : (observe f ρ).optionalExpr e? =
    report f ((e?.elim [] Expr.identifiers).map .use) (e?.map (Expr.renameUses ρ)) := by
  cases e? with
  | none => exact (report_nil f _).symm
  | some e =>
    rw [optionalExpr, expr_observe, report_bind_pure]
    rfl

theorem stackForm_observe (form : StackForm) : (observe f ρ).stackForm form =
    report f (form.identifiers.map .use) (form.renameUses ρ) := by
  cases form with
  | label => exact (report_nil f _).symm
  | assignment span target =>
    change ((observe f ρ).use target >>= fun i => pure (StackForm.assignment span i)) = _
    rw [use_observe, report_bind_pure]
    rfl
  | instruction => exact (report_nil f _).symm

mutual

theorem stmt_observe : (s : Stmt) → (observe f ρ).stmt s = report f s.moments (s.renameUses ρ)
  | .expression e => by
    rw [stmt, expr_observe, report_bind_pure]
    rfl
  | .declaration .. => by
    simp only [stmt, optionalExpr_observe, vars_observe, pure_bind, report_bind_pure]
    rfl
  | .assignment _ targets value => by
    simp only [stmt, uses_observe, expr_observe, report_bind, report_bind_pure]
    rfl
  | .conditional _ condition body => by
    simp only [stmt, expr_observe, block_observe body, report_bind, report_bind_pure]
    rfl
  | .switch _ subject arms => by
    simp only [stmt, expr_observe, cases_observe arms, report_bind, report_bind_pure]
    rfl
  | .loop _ ⟨_, pre⟩ condition post body => by
    simp only [stmt, enterBlock_observe, leaveBlock_observe, stmts_observe pre, expr_observe,
      block_observe post, block_observe body, report_bind, report_bind_pure, Stmt.moments,
      List.append_assoc]
    rfl
  | .function ⟨_, body⟩ => by
    simp only [stmt, enterFunction_observe, leaveFunction_observe, block_observe body, pure_bind,
      report_bind_pure]
    rfl
  | .block b => by
    rw [stmt, block_observe b, report_bind_pure]
    rfl
  | .stack form => by
    rw [stmt, stackForm_observe, report_bind_pure]
    rfl

theorem stmts_observe : (ss : List Stmt) → (observe f ρ).stmts ss =
    report f (Stmt.allMoments ss) (Stmt.allRenameUses ρ ss)
  | [] => (report_nil f _).symm
  | s :: ss => by
    simp only [stmts, stmt_observe s, stmts_observe ss, report_bind, report_bind_pure]
    rfl

theorem block_observe : (b : Block) →
    (observe f ρ).block b = report f b.moments (b.renameUses ρ)
  | ⟨_, ss⟩ => by
    simp only [block, enterBlock_observe, leaveBlock_observe, stmts_observe ss, report_bind,
      report_bind_pure]
    rfl

theorem cases_observe : (cs : List Case) → (observe f ρ).cases cs =
    report f (Case.allMoments cs) (Case.allRenameUses ρ cs)
  | [] => (report_nil f _).symm
  | ⟨_, _, body⟩ :: cs => by
    simp only [cases, block_observe body, cases_observe cs, report_bind, report_bind_pure]
    rfl

end

theorem report_pure {α : Type} (ms : List Moment) (a : α) :
    report (fun _ => (pure () : m Unit)) ms a = pure a := by
  induction ms with
  | nil => exact report_nil _ a
  | cons moment ms ih =>
    rw [report] at ih ⊢
    rw [List.forM_cons, pure_bind, ih]

theorem block_ofUse (b : Block) :
    (ofUse fun i => (pure (i.rename ρ) : m Identifier)).block b = pure (b.renameUses ρ) := by
  have hpure : observe (fun _ => (pure () : m Unit)) ρ = ofUse fun i => pure (i.rename ρ) := by
    simp only [observe, pure_bind]
    rfl
  rw [← hpure, block_observe, report_pure]

theorem keepsShape_ofUse :
    (ofUse fun i => (pure (i.rename ρ) : EStateM Failure Unit Identifier)).KeepsShape where
  use _ _ := .pure rfl
  vars _ _ := .pure rfl
  enterFunction _ _ := .pure rfl
  stackForm form s := by
    cases form <;> exact .pure rfl

end Traversal

namespace Block

theorem anonymous_renameUses (ρ : String → String) (b : Block) :
    (b.renameUses ρ).anonymous = b.anonymous := by
  have h := (Traversal.keepsShape_ofUse ρ).block b ()
  rw [Traversal.block_ofUse] at h
  exact h

theorem recorder_eq (ρ : String → String) :
    recorder ρ = Traversal.observe (fun moment => modify (· ++ [moment.visit])) ρ := rfl

theorem run_report (ms : List Moment) (vs : List Visit) (b : Block) :
    (Traversal.report (m := StateM (List Visit)) (fun moment => modify (· ++ [moment.visit])) ms
      b).run vs = (b, vs ++ ms.map Moment.visit) := by
  induction ms generalizing vs with
  | nil =>
    rw [List.map_nil, List.append_nil]
    rfl
  | cons moment ms ih =>
    have h := ih (vs ++ [moment.visit])
    simp only [Traversal.report, List.forM_cons, bind_assoc] at h ⊢
    simpa using h

/--
Copying replaces exactly the uses of names in a block, and nothing else, so that it changes nothing
if it replaces each name by itself. It cannot fail. Whatever is done on the way is done at the
moments of the block, in the order of the source: once at each use, and where blocks begin and end.
-/
theorem copies_inOrder (ρ : String → String) (b : Block) :
    (∀ (σ : Type) (s : σ),
      (Traversal.ofUse fun i => (pure (i.rename ρ) : EStateM Failure σ Identifier)).block b s =
        .ok (b.renameUses ρ) s) ∧
    (∀ (σ : Type) (f : Moment → EStateM Failure σ Unit), (Traversal.observe f ρ).block b = do
      forM b.moments f
      return b.renameUses ρ) ∧
    b.mapUses ρ = b.renameUses ρ ∧ b.mapUses id = b ∧
    b.visits ρ = (b.renameUses ρ, b.moments.map Moment.visit) ∧
    (b.renameUses ρ).identifiers = b.identifiers.map (Identifier.rename ρ) ∧
    (b.renameUses ρ).boundNames = b.boundNames ∧ (b.renameUses ρ).anonymous = b.anonymous ∧
    b.moments.filterMap Moment.use? = b.identifiers ∧ Bracketed b.moments := by
  have hmap : ∀ ρ : String → String, b.mapUses ρ = b.renameUses ρ :=
    fun ρ => Traversal.block_ofUse ρ b
  refine ⟨?_, fun σ f => Traversal.block_observe f ρ b, hmap ρ, ?_, ?_,
    b.identifiers_renameUses ρ, b.boundNames_renameUses ρ, b.anonymous_renameUses ρ,
    b.uses_moments, b.bracketed_moments⟩
  . intro σ s
    rw [Traversal.block_ofUse]
    rfl
  . rw [hmap, b.renameUses_id]
  . unfold visits
    rw [recorder_eq, Traversal.block_observe, run_report]
    rfl

end Block
end Splice
