import Splice.Proofs.Analysis.Foreign
import Splice.Proofs.Disambiguate.Ledger
import Splice.Proofs.Pass.Meets
import Splice.Proofs.Tree.Bindings

/-!
This module contains the proof that the pass decides on the names of a program in the order in which
its bindings are visited, and that each decision is what the tree shows in the end.
-/

namespace Splice
namespace Disambiguation

variable {reserved external : List String}

/--
If `x` returns then it binds the names `olds`, in this order, and nothing else. What they are called
then and the scopes in the end are related to its result by `post`.
-/
def Books {α : Type} (reserved external : List String) (scopes : List Renames) (olds : List String)
    (x : Pass α) (post : α → List String → List Renames → Prop) : Prop :=
  ∀ before news s, Booked reserved external before news s → s.scopes = scopes →
    (∀ y ∈ olds, y ∈ reserved ∧ y ∉ external) →
    Meets x s (fun a s' => ∃ named, Booked reserved external (before ++ olds) (news ++ named) s' ∧
      post a named s'.scopes) fun _ => True

def Quiet {α : Type} (reserved external : List String) (scopes : List Renames) (x : Pass α) :
    Prop :=
  Books reserved external scopes [] x fun _ named scopes' => named = [] ∧ scopes' = scopes

namespace Books

variable {α β : Type} {scopes : List Renames} {olds olds' : List String} {x : Pass α}
  {f : α → Pass β} {post post' : α → List String → List Renames → Prop}
  {goal : β → List String → List Renames → Prop}

theorem pure {a : α} (h : post a [] scopes) :
    Books reserved external scopes [] (Pure.pure a) post := by
  rintro before news s hs rfl _
  refine Meets.pure ⟨[], ?_, h⟩
  rwa [List.append_nil, List.append_nil]

theorem imp (hx : Books reserved external scopes olds x post)
    (h : ∀ a named scopes', post a named scopes' → post' a named scopes') :
    Books reserved external scopes olds x post' := by
  intro before news s hs hscopes holds
  apply (hx before news s hs hscopes holds).imp _ fun _ => id
  rintro a s' ⟨named, hs', hpost⟩
  exact ⟨named, hs', h a named _ hpost⟩

theorem bind (hx : Books reserved external scopes olds x post)
    (hf : ∀ a named scopes', post a named scopes' →
      Books reserved external scopes' olds' (f a) fun b named' => goal b (named ++ named')) :
    Books reserved external scopes (olds ++ olds') (x >>= f) goal := by
  intro before news s hs hscopes holds
  obtain ⟨hfirst, hsecond⟩ := List.forall_mem_append.1 holds
  apply (hx before news s hs hscopes hfirst).bind
  rintro a s' ⟨named, hs', hpost⟩
  apply (hf a named _ hpost _ _ s' hs' rfl hsecond).imp _ fun _ => id
  rintro b s'' ⟨named', hs'', hgoal⟩
  refine ⟨named ++ named', ?_, hgoal⟩
  rwa [← List.append_assoc, ← List.append_assoc]

theorem before (hx : Books reserved external scopes olds x post)
    (hf : ∀ a named scopes', post a named scopes' →
      Books reserved external scopes' [] (f a) fun b named' => goal b (named ++ named')) :
    Books reserved external scopes olds (x >>= f) goal := by
  have := hx.bind hf
  rwa [List.append_nil] at this

theorem map {g : α → β} (hx : Books reserved external scopes olds x fun a => goal (g a)) :
    Books reserved external scopes olds (x >>= fun a => Pure.pure (g a)) goal := by
  apply hx.before
  intro a named _ h
  exact .pure ((List.append_nil named).symm ▸ h)

end Books

theorem Quiet.after {α β : Type} {scopes : List Renames} {olds : List String} {x : Pass α}
    {f : α → Pass β} {goal : β → List String → List Renames → Prop}
    (hx : Quiet reserved external scopes x)
    (hf : ∀ a, Books reserved external scopes olds (f a) goal) :
    Books reserved external scopes olds (x >>= f) goal := by
  apply Books.bind hx
  rintro a _ _ ⟨rfl, rfl⟩
  exact hf a

/-! ## Names -/

section

variable {scopes rest : List Renames} {top : Renames}

theorem books_enter :
    Books reserved external scopes [] (modify State.enter) fun _ named scopes' =>
      named = [] ∧ scopes' = [] :: scopes := by
  rintro before news s hs rfl _
  refine ⟨[], ?_, rfl, rfl⟩
  rw [List.append_nil, List.append_nil]
  exact hs.congr rfl rfl rfl rfl

theorem books_leave :
    Books reserved external (top :: rest) [] (modify State.leave) fun _ named scopes' =>
      named = [] ∧ scopes' = rest := by
  rintro before news s hs hscopes _
  refine ⟨[], ?_, rfl, congrArg List.tail hscopes⟩
  rw [List.append_nil, List.append_nil]
  exact hs.congr rfl rfl rfl rfl

theorem books_bind (x : String) :
    Books reserved external (top :: rest) [x] (bind x) fun y named scopes' =>
      named = [y] ∧ scopes' = ((x, y) :: top) :: rest := by
  intro before news s hs hscopes hx
  obtain ⟨hreserved, hforeign⟩ := hx x List.mem_cons_self
  exact ⟨[(s.bind x).1], hs.bind hreserved hforeign, rfl, State.scopes_bind hscopes x⟩

theorem books_bindAll (xs : List Binder) :
    Books reserved external (top :: rest) (xs.map Binder.name) (bindAll xs) fun xs' named scopes' =>
      named = xs'.map Binder.name ∧ ∃ top', scopes' = top' :: rest ∧
        ∀ y ∉ xs.map Binder.name, top'.lookup y = top.lookup y := by
  induction xs generalizing top with
  | nil => exact .pure ⟨rfl, top, rfl, fun _ _ => rfl⟩
  | cons x xs ih =>
    apply (books_bind x.name).bind
    rintro y _ _ ⟨rfl, rfl⟩
    refine .map (ih.imp ?_)
    rintro xs' _ _ ⟨rfl, top', rfl, hlookup⟩
    refine ⟨rfl, top', rfl, fun z hz => ?_⟩
    rw [List.map_cons, List.mem_cons, not_or] at hz
    rw [hlookup z hz.2, List.lookup_cons, beq_false_of_ne hz.1]

theorem quiet_use (i : Identifier) : Quiet reserved external scopes (use external i) := by
  rintro before news s hs rfl _
  unfold use
  apply Meets.get_bind
  have hsame : Booked reserved external (before ++ []) (news ++ []) s := by
    rwa [List.append_nil, List.append_nil]
  split
  . exact .pure ⟨[], hsame, rfl, rfl⟩
  . split
    . exact .pure ⟨[], hsame, rfl, rfl⟩
    . exact .throw trivial

theorem quiet_functionName {x y : String} (h : top.lookup x = some y) :
    Books reserved external (top :: rest) [] (functionName x) fun y' named scopes' =>
      y' = y ∧ named = [] ∧ scopes' = top :: rest := by
  intro before news s hs hscopes _
  have hlookup : s.lookupHere x = some y := by
    unfold State.lookupHere
    rwa [hscopes]
  unfold functionName
  apply Meets.get_bind
  rw [hlookup]
  refine .pure ⟨[], ?_, rfl, rfl, hscopes⟩
  rwa [List.append_nil, List.append_nil]

theorem books_enterFunction (f : Signature) {y : String} (h : top.lookup f.name = some y) :
    Books reserved external (top :: rest)
      (f.parameters.map Binder.name ++ f.returns.map Binder.name) (enterFunction f)
      fun f' named scopes' => f'.name = y ∧
        named = f'.parameters.map Binder.name ++ f'.returns.map Binder.name ∧
        ∃ inner, scopes' = inner :: top :: rest := by
  unfold enterFunction
  apply (quiet_functionName h).bind
  rintro _ _ _ ⟨rfl, rfl, rfl⟩
  apply books_enter.bind
  rintro _ _ _ ⟨rfl, rfl⟩
  apply (books_bindAll f.parameters).bind
  rintro parameters _ _ ⟨rfl, inner, rfl, _⟩
  refine .map ((books_bindAll f.returns).imp ?_)
  rintro returns _ _ ⟨rfl, inner', rfl, _⟩
  exact ⟨rfl, rfl, inner', rfl⟩

theorem books_bindFunctions (ss : List Stmt) (hforms : Stmt.allStackForms ss = [])
    (hnodup : (ss.flatMap Stmt.announced).Nodup) :
    Books reserved external (top :: rest) (ss.flatMap Stmt.announced) (bindFunctions ss)
      fun _ named scopes' => ∃ top', scopes' = top' :: rest ∧
        (ss.flatMap Stmt.announced).map (top'.lookup ·) = named.map some ∧
        ∀ y ∉ ss.flatMap Stmt.announced, top'.lookup y = top.lookup y := by
  induction ss generalizing top with
  | nil => exact .pure ⟨top, rfl, rfl, fun _ _ => rfl⟩
  | cons s ss ih =>
    obtain ⟨hform, hrest⟩ := List.append_eq_nil_iff.1 hforms
    cases s with
    | function f =>
      obtain ⟨f, body⟩ := f
      obtain ⟨hnotMem, hnodup⟩ := List.nodup_cons.1 hnodup
      apply (books_bind f.name).bind
      rintro y _ _ ⟨rfl, rfl⟩
      apply (ih hrest hnodup).imp
      rintro _ named _ ⟨top', rfl, hlookup, hother⟩
      refine ⟨top', rfl, ?_, fun z hz => ?_⟩
      . have hhead : top'.lookup f.name = some y := by
          rw [hother f.name hnotMem, List.lookup_cons_self]
        exact congrArg₂ List.cons hhead hlookup
      . obtain ⟨hne, hz⟩ := not_or.1 (mt List.mem_cons.2 hz)
        rw [hother z hz, List.lookup_cons, beq_false_of_ne hne]
    | stack form => contradiction
    | _ => exact ih hrest hnodup

theorem books_enterBlock {ss : List Stmt} (hforms : Stmt.allStackForms ss = [])
    (hnodup : (ss.flatMap Stmt.announced).Nodup) :
    Books reserved external scopes (ss.flatMap Stmt.announced) ((traversal external).enterBlock ss)
      fun _ named scopes' => ∃ top, scopes' = top :: scopes ∧
        (ss.flatMap Stmt.announced).map (top.lookup ·) = named.map some := by
  apply books_enter.bind
  rintro _ _ _ ⟨rfl, rfl⟩
  apply (books_bindFunctions ss hforms hnodup).imp
  rintro _ named _ ⟨top, rfl, hlookup, _⟩
  exact ⟨top, rfl, hlookup⟩

end

theorem notDeclarable_of_enter (c : Context) (ss : List Stmt) :
    ∀ y ∈ ss.flatMap Stmt.announced, ¬(c.enter ss).Declarable y :=
  fun _ hy hdeclarable => ((c.declarable_enter ss).1 hdeclarable).2 hy

/-! ## Trees -/

mutual

theorem quiet_expr (scopes : List Renames) : (e : Expr) →
    Quiet reserved external scopes ((traversal external).expr e)
  | .literal _ => .pure ⟨rfl, rfl⟩
  | .identifier i => (quiet_use i).after fun _ => .pure ⟨rfl, rfl⟩
  | .call _ callee arguments =>
    (quiet_use callee).after fun _ => (quiet_exprs scopes arguments).after fun _ => .pure ⟨rfl, rfl⟩
  | .instruction _ _ arguments => (quiet_exprs scopes arguments).after fun _ => .pure ⟨rfl, rfl⟩

theorem quiet_exprs (scopes : List Renames) : (es : List Expr) →
    Quiet reserved external scopes ((traversal external).exprs es)
  | [] => .pure ⟨rfl, rfl⟩
  | e :: es =>
    (quiet_expr scopes e).after fun _ => (quiet_exprs scopes es).after fun _ => .pure ⟨rfl, rfl⟩

end

theorem quiet_optionalExpr (scopes : List Renames) (value : Option Expr) :
    Quiet reserved external scopes ((traversal external).optionalExpr value) := by
  cases value with
  | none => exact .pure ⟨rfl, rfl⟩
  | some e => exact (quiet_expr scopes e).after fun _ => .pure ⟨rfl, rfl⟩

theorem quiet_uses (scopes : List Renames) (is : List Identifier) :
    Quiet reserved external scopes ((traversal external).uses is) := by
  induction is with
  | nil => exact .pure ⟨rfl, rfl⟩
  | cons i is ih => exact (quiet_use i).after fun _ => ih.after fun _ => .pure ⟨rfl, rfl⟩

mutual

theorem books_stmt {c : Context} (rest : List Renames) (top : Renames) {called : List String} :
    (x : Stmt) → x.stackForms = [] → x.DeclaresNew c →
    x.announced.map (top.lookup ·) = called.map some →
    Books reserved external (top :: rest) x.bindings ((traversal external).stmt x)
      fun x' named scopes' => named = x'.bindings ∧ x'.announced = called ∧
        ∃ top', scopes' = top' :: rest ∧ ∀ y, ¬c.Declarable y → top'.lookup y = top.lookup y
  | .expression e, _, _, hcalled => by
    obtain rfl := List.map_eq_nil_iff.1 hcalled.symm
    exact (quiet_expr _ e).after fun _ => .pure ⟨rfl, rfl, top, rfl, fun _ _ => rfl⟩
  | .declaration _ vars value, _, hd, hcalled => by
    obtain rfl := List.map_eq_nil_iff.1 hcalled.symm
    refine (quiet_optionalExpr _ value).after fun _ => .map ((books_bindAll vars).imp ?_)
    rintro vars' _ _ ⟨rfl, top', rfl, hlookup⟩
    refine ⟨rfl, rfl, top', rfl, fun y hy => hlookup y fun hmem => ?_⟩
    exact hy (hd.declarable y hmem)
  | .assignment _ targets value, _, _, hcalled => by
    obtain rfl := List.map_eq_nil_iff.1 hcalled.symm
    exact (quiet_uses _ targets).after fun _ => (quiet_expr _ value).after fun _ =>
      .pure ⟨rfl, rfl, top, rfl, fun _ _ => rfl⟩
  | .conditional _ condition body, hforms, hd, hcalled => by
    obtain rfl := List.map_eq_nil_iff.1 hcalled.symm
    refine (quiet_expr _ condition).after fun _ => .map ((books_block _ body hforms hd).imp ?_)
    rintro body' _ _ ⟨rfl, rfl⟩
    exact ⟨rfl, rfl, top, rfl, fun _ _ => rfl⟩
  | .switch _ subject arms, hforms, hd, hcalled => by
    obtain rfl := List.map_eq_nil_iff.1 hcalled.symm
    refine (quiet_expr _ subject).after fun _ => .map ((books_cases _ arms hforms hd).imp ?_)
    rintro arms' _ _ ⟨rfl, rfl⟩
    exact ⟨rfl, rfl, top, rfl, fun _ _ => rfl⟩
  | .loop _ ⟨_, pre⟩ condition post body, hforms, hd, hcalled => by
    obtain rfl := List.map_eq_nil_iff.1 hcalled.symm
    obtain ⟨hforms, hbody⟩ := List.append_eq_nil_iff.1 hforms
    obtain ⟨hpre, hpost⟩ := List.append_eq_nil_iff.1 hforms
    apply (books_enterBlock hpre hd.1.nodup).bind
    rintro _ announced _ ⟨inner, rfl, hlookup⟩
    apply (books_stmts _ inner pre hpre hd.2.1 (notDeclarable_of_enter c pre) hlookup).bind
    rintro pre' _ _ ⟨rfl, rfl, inner', rfl⟩
    -- The scope of the first part stays open for the others.
    refine (quiet_expr _ condition).after fun _ => ?_
    apply (books_block _ post hpost hd.2.2.1).bind
    rintro post' _ _ ⟨rfl, rfl⟩
    apply (books_block _ body hbody hd.2.2.2).before
    rintro body' _ _ ⟨rfl, rfl⟩
    refine .map (books_leave.imp ?_)
    rintro _ _ _ ⟨rfl, rfl⟩
    rw [List.append_nil]
    exact ⟨rfl, rfl, top, rfl, fun _ _ => rfl⟩
  | .function ⟨f, body⟩, hforms, hd, hcalled => by
    obtain ⟨y, rfl, hy⟩ := List.map_eq_singleton_iff.1 hcalled.symm
    unfold Stmt.bindings
    rw [← List.append_assoc]
    apply (books_enterFunction f hy.symm).bind
    rintro f' _ _ ⟨rfl, rfl, inner, rfl⟩
    apply (books_block _ body hforms hd.2).before
    rintro body' _ _ ⟨rfl, rfl⟩
    refine .map (books_leave.imp ?_)
    rintro _ _ _ ⟨rfl, rfl⟩
    rw [List.append_nil, List.append_assoc]
    exact ⟨rfl, rfl, top, rfl, fun _ _ => rfl⟩
  | .block b, hforms, hd, hcalled => by
    obtain rfl := List.map_eq_nil_iff.1 hcalled.symm
    refine .map ((books_block _ b hforms hd).imp ?_)
    rintro b' _ _ ⟨rfl, rfl⟩
    exact ⟨rfl, rfl, top, rfl, fun _ _ => rfl⟩

theorem books_stmts {c : Context} (rest : List Renames) (top : Renames) {called : List String} :
    (xs : List Stmt) → Stmt.allStackForms xs = [] → Stmt.AllDeclareNew c xs →
    (∀ y ∈ xs.flatMap Stmt.announced, ¬c.Declarable y) →
    (xs.flatMap Stmt.announced).map (top.lookup ·) = called.map some →
    Books reserved external (top :: rest) (Stmt.allBindings xs) ((traversal external).stmts xs)
      fun xs' named scopes' => named = Stmt.allBindings xs' ∧
        xs'.flatMap Stmt.announced = called ∧ ∃ top', scopes' = top' :: rest
  | [], _, _, _, hcalled => by
    obtain rfl := List.map_eq_nil_iff.1 hcalled.symm
    exact .pure ⟨rfl, rfl, top, rfl⟩
  | x :: xs, hforms, hd, hvisible, hcalled => by
    obtain ⟨hform, hforms⟩ := List.append_eq_nil_iff.1 hforms
    rw [List.flatMap_cons, List.forall_mem_append] at hvisible
    rw [List.flatMap_cons, List.map_append, List.append_eq_map_iff] at hcalled
    obtain ⟨first, others, rfl, hfirst, hothers⟩ := hcalled
    apply (books_stmt rest top x hform hd.1 hfirst.symm).bind
    rintro x' _ _ ⟨rfl, rfl, top', rfl, hlookup⟩
    -- Nothing that the block announces can be declared by `x`, so it is still looked up as before.
    have hvisible' : ∀ y ∈ xs.flatMap Stmt.announced, ¬(c.declare x.declared).Declarable y := by
      intro y hy hdeclarable
      exact hvisible.2 y hy ((c.declarable_declare _).1 hdeclarable).1
    have hothers' : (xs.flatMap Stmt.announced).map (top'.lookup ·) = others.map some := by
      rw [hothers]
      exact List.map_congr_left fun y hy => hlookup y (hvisible.2 y hy)
    refine .map ((books_stmts rest top' xs hforms hd.2 hvisible' hothers').imp ?_)
    rintro xs' _ _ ⟨rfl, rfl, top'', rfl⟩
    exact ⟨rfl, rfl, top'', rfl⟩

theorem books_block {c : Context} (scopes : List Renames) : (b : Block) → b.stackForms = [] →
    b.DeclaresNew c →
    Books reserved external scopes b.bindings ((traversal external).block b)
      fun b' named scopes' => named = b'.bindings ∧ scopes' = scopes
  | ⟨_, ss⟩, hforms, hd => by
    apply (books_enterBlock hforms hd.1.nodup).bind
    rintro _ announced _ ⟨top, rfl, hlookup⟩
    apply (books_stmts scopes top ss hforms hd.2 (notDeclarable_of_enter c ss) hlookup).before
    rintro ss' _ _ ⟨rfl, rfl, top', rfl⟩
    refine .map (books_leave.imp ?_)
    rintro _ _ _ ⟨rfl, rfl⟩
    rw [List.append_nil]
    exact ⟨rfl, rfl⟩

theorem books_cases {c : Context} (scopes : List Renames) : (cs : List Case) →
    Case.allStackForms cs = [] → Case.AllDeclareNew c cs →
    Books reserved external scopes (Case.allBindings cs) ((traversal external).cases cs)
      fun cs' named scopes' => named = Case.allBindings cs' ∧ scopes' = scopes
  | [], _, _ => .pure ⟨rfl, rfl⟩
  | ⟨_, _, body⟩ :: cs, hforms, hd => by
    obtain ⟨hbody, hforms⟩ := List.append_eq_nil_iff.1 hforms
    apply (books_block scopes body hbody hd.1).bind
    rintro body' _ _ ⟨rfl, rfl⟩
    refine .map ((books_cases _ cs hforms hd.2).imp ?_)
    rintro cs' _ _ ⟨rfl, rfl⟩
    exact ⟨rfl, rfl⟩

end

end Disambiguation
end Splice
